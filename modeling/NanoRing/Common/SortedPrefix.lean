import Mathlib.Logic.Function.Basic
import Mathlib.Order.Defs.Unbundled
import Mathlib.Order.Nat

/-!
# Sorted array prefixes

The first cells of an array, strictly ordered by a key. A binary search over them answers
with the index of the key or with its insertion point `p`, encoded as `-(p + 1)`; a new
cell is inserted there after shifting the later cells right, and a cell is removed by
shifting the later cells left. Cells past the prefix are arbitrary.
-/

namespace SortedPrefix

variable {α κ : Type*}

/-- The first `n` cells are strictly ordered by their keys. -/
def Sorted (r : κ → κ → Prop) (key : α → κ) (a : ℕ → α) (n : ℕ) : Prop :=
  ∀ i j, i < j → j < n → r (key (a i)) (key (a j))

/-- One of the first `n` cells holds `x`. -/
def Has (a : ℕ → α) (n : ℕ) (x : α) : Prop := ∃ i < n, a i = x

/-! ## Binary search -/

/-- Halve the window `[lo, hi]` until a hit; without one, encode where the window closed. -/
def search (hit goRight : ℕ → Bool) : ℕ → ℤ → ℤ → ℤ
  | 0, lo, _ => -(lo + 1)
  | fuel + 1, lo, hi =>
    if lo ≤ hi then
      let mid := (lo + hi) / 2
      if hit mid.toNat then mid
      else if goRight mid.toNat then search hit goRight fuel (mid + 1) hi
      else search hit goRight fuel lo (mid - 1)
    else -(lo + 1)

/-- What the search answers: a hit inside the prefix, or the point that separates the cells
to the left of the target from those to its right. -/
def Answer (hit goRight : ℕ → Bool) (n : ℕ) (answer : ℤ) : Prop :=
  (∃ m : ℕ, m < n ∧ hit m = true ∧ answer = m) ∨
    ∃ p : ℕ, p ≤ n ∧ answer = -((p : ℤ) + 1) ∧
      (∀ i < p, goRight i = true ∧ hit i = false) ∧
      ∀ i, p ≤ i → i < n → goRight i = false ∧ hit i = false

/-- The search keeps every cell outside its window on the right side of the target. -/
theorem search_answer {hit goRight : ℕ → Bool} {n : ℕ}
    (hleft : ∀ i j, i < j → j < n → goRight j = true → hit j = false →
      goRight i = true ∧ hit i = false)
    (hright : ∀ i j, i < j → j < n → goRight i = false → hit i = false →
      goRight j = false ∧ hit j = false)
    (fuel lo hi : ℕ) (hfuel : hi ≤ lo + fuel) (hlo : lo ≤ hi) (hhi : hi ≤ n)
    (hbelow : ∀ i < lo, goRight i = true ∧ hit i = false)
    (habove : ∀ i, hi ≤ i → i < n → goRight i = false ∧ hit i = false) :
    Answer hit goRight n (search hit goRight fuel lo ((hi : ℤ) - 1)) := by
  induction fuel generalizing lo hi with
  | zero =>
    obtain rfl : lo = hi := by omega
    exact Or.inr ⟨lo, hhi, rfl, hbelow, habove⟩
  | succ fuel ih =>
    by_cases hwindow : lo = hi
    · subst hwindow
      rw [search, if_neg (by omega)]
      exact Or.inr ⟨lo, hhi, rfl, hbelow, habove⟩
    obtain ⟨mid, hmid⟩ : ∃ mid : ℕ, ((lo : ℤ) + ((hi : ℤ) - 1)) / 2 = mid :=
      ⟨(lo + hi - 1) / 2, by omega⟩
    have hlomid : lo ≤ mid := by omega
    have hmidhi : mid < hi := by omega
    simp only [search, hmid, Int.toNat_natCast]
    rw [if_pos (by omega)]
    cases hhit : hit mid with
    | true => exact Or.inl ⟨mid, by omega, hhit, rfl⟩
    | false =>
      rw [if_neg (by simp)]
      cases hgo : goRight mid with
      | true =>
        rw [if_pos rfl]
        refine ih (mid + 1) hi (by omega) (by omega) hhi (fun i hi' => ?_) habove
        rcases Nat.lt_succ_iff_lt_or_eq.mp hi' with hlt | rfl
        · exact hleft i mid hlt (by omega) hgo hhit
        · exact ⟨hgo, hhit⟩
      | false =>
        rw [if_neg (by simp)]
        refine ih lo mid (by omega) hlomid (by omega) hbelow fun i hi' hin => ?_
        rcases Nat.eq_or_lt_of_le hi' with rfl | hlt
        · exact ⟨hgo, hhit⟩
        · exact hright mid i hlt hin hgo hhit

section Search

variable {r : κ → κ → Prop} [IsStrictTotalOrder κ r] {key : α → κ} {a : ℕ → α} {n : ℕ}

/-- A search of a sorted prefix finds the target's index or its insertion point. -/
theorem search_sorted (hsorted : Sorted r key a n) {target : κ} {hit goRight : ℕ → Bool}
    (hhit : ∀ i, hit i = true ↔ key (a i) = target)
    (hgo : ∀ i, goRight i = true ↔ r (key (a i)) target) :
    (∃ m : ℕ, m < n ∧ key (a m) = target ∧ search hit goRight n 0 ((n : ℤ) - 1) = m) ∨
      ∃ p : ℕ, p ≤ n ∧ search hit goRight n 0 ((n : ℤ) - 1) = -((p : ℤ) + 1) ∧
        (∀ i < p, r (key (a i)) target) ∧ ∀ i, p ≤ i → i < n → r target (key (a i)) := by
  have hhit' (i : ℕ) : hit i = false ↔ key (a i) ≠ target := by
    rw [← Bool.not_eq_true, hhit]
  have hgo' (i : ℕ) : goRight i = false ↔ ¬ r (key (a i)) target := by
    rw [← Bool.not_eq_true, hgo]
  have hafter (i : ℕ) (h₁ : goRight i = false) (h₂ : hit i = false) : r target (key (a i)) := by
    rcases trichotomous_of r (key (a i)) target with h | h | h
    · exact absurd h ((hgo' i).mp h₁)
    · exact absurd h ((hhit' i).mp h₂)
    · exact h
  have hanswer : Answer hit goRight n (search hit goRight n ((0 : ℕ) : ℤ) ((n : ℤ) - 1)) := by
    refine search_answer ?_ ?_ n 0 n (by omega) (by omega) le_rfl (by omega) (by omega)
    · intro i j hij hj hgoj _
      have h := trans_of r (hsorted i j hij hj) ((hgo j).mp hgoj)
      exact ⟨(hgo i).mpr h, (hhit' i).mpr fun heq => irrefl_of r target (heq ▸ h)⟩
    · intro i j hij hj hgoi hhiti
      have h := trans_of r (hafter i hgoi hhiti) (hsorted i j hij hj)
      exact ⟨(hgo' j).mpr fun hlt => asymm_of r h hlt,
        (hhit' j).mpr fun heq => irrefl_of r target (heq ▸ h)⟩
  rcases hanswer with ⟨m, hm, hmhit, heq⟩ | ⟨p, hp, heq, hbelow, habove⟩
  · exact Or.inl ⟨m, hm, (hhit m).mp hmhit, heq⟩
  · exact Or.inr ⟨p, hp, heq, fun i hi => (hgo i).mp (hbelow i hi).1,
      fun i hpi hi => hafter i (habove i hpi hi).1 (habove i hpi hi).2⟩

/-- Cells of a sorted prefix with the same key are the same cell. -/
theorem Sorted.index_eq (hsorted : Sorted r key a n) {i j : ℕ} (hi : i < n) (hj : j < n)
    (heq : key (a i) = key (a j)) : i = j := by
  rcases lt_trichotomy i j with h | h | h
  · exact absurd (heq ▸ hsorted i j h hj) (irrefl_of r _)
  · exact h
  · exact absurd (heq ▸ hsorted j i h hi) (irrefl_of r _)

end Search

/-! ## Shifting -/

/-- `for (i = n; i > pos; i--) a[i] = a[i - 1]`. -/
def shiftRight (a : ℕ → α) (pos : ℕ) : ℕ → ℕ → α
  | 0 => a
  | i + 1 => if i + 1 > pos then shiftRight (Function.update a (i + 1) (a i)) pos i else a

/-- `for (j = pos; j + 1 < n; j++) a[j] = a[j + 1]`. -/
def shiftLeft (a : ℕ → α) (pos n : ℕ) : ℕ → α :=
  (List.range' pos (n - 1 - pos)).foldl (fun a j => Function.update a j (a (j + 1))) a

/-- Shifting right moves the cells from `pos` on by one. -/
theorem shiftRight_apply (a : ℕ → α) (pos n j : ℕ) :
    shiftRight a pos n j = if pos < j ∧ j ≤ n then a (j - 1) else a j := by
  induction n generalizing a with
  | zero =>
    rw [shiftRight, if_neg (by omega)]
  | succ n ih =>
    rw [shiftRight]
    by_cases hpos : n + 1 > pos
    · rw [if_pos hpos, ih]
      by_cases hj : j = n + 1
      · subst hj
        rw [if_neg (by omega), if_pos (by omega), Function.update_self, Nat.add_sub_cancel]
      · rw [Function.update_of_ne hj]
        by_cases hin : pos < j ∧ j ≤ n
        · rw [if_pos hin, if_pos (by omega), Function.update_of_ne (by omega)]
        · rw [if_neg hin, if_neg (by omega)]
    · rw [if_neg hpos, if_neg (by omega)]

/-- Shifting left by `len` steps from `pos` moves the cells after `pos` by one. -/
theorem shiftLeft_foldl_apply (a : ℕ → α) (pos len j : ℕ) :
    (List.range' pos len).foldl (fun a j => Function.update a j (a (j + 1))) a j =
      if pos ≤ j ∧ j < pos + len then a (j + 1) else a j := by
  induction len generalizing a pos with
  | zero => rw [if_neg (by omega)]; rfl
  | succ len ih =>
    rw [List.range'_succ, List.foldl_cons, ih]
    by_cases hj : j = pos
    · subst hj
      rw [if_neg (by omega), if_pos (by omega), Function.update_self]
    · rw [Function.update_of_ne hj]
      by_cases hin : pos + 1 ≤ j ∧ j < pos + 1 + len
      · rw [if_pos hin, if_pos (by omega), Function.update_of_ne (by omega)]
      · rw [if_neg hin, if_neg (by omega)]

/-- Shifting left moves the cells after `pos` by one. -/
theorem shiftLeft_apply (a : ℕ → α) {pos n : ℕ} (hpos : pos < n) (j : ℕ) :
    shiftLeft a pos n j = if pos ≤ j ∧ j + 1 < n then a (j + 1) else a j := by
  rw [shiftLeft, shiftLeft_foldl_apply]
  exact if_congr (by omega) rfl rfl

/-! ## Insertion and removal -/

/-- The array with `x` inserted at `pos` into its first `n` cells. -/
def insertAt (a : ℕ → α) (n pos : ℕ) (x : α) : ℕ → α :=
  Function.update (shiftRight a pos n) pos x

/-- The cells after an insertion: those before, the new one, and those after, one later. -/
theorem insertAt_apply (a : ℕ → α) {n pos : ℕ} (x : α) {j : ℕ} (hj : j ≤ n) :
    insertAt a n pos x j = if j < pos then a j else if j = pos then x else a (j - 1) := by
  unfold insertAt
  by_cases hjpos : j = pos
  · subst hjpos
    rw [Function.update_self, if_neg (by omega), if_pos rfl]
  · rw [Function.update_of_ne hjpos, shiftRight_apply]
    by_cases hlt : j < pos
    · rw [if_neg (by omega), if_pos hlt]
    · rw [if_pos (by omega), if_neg hlt, if_neg hjpos]

/-- An insertion adds exactly the new cell. -/
theorem has_insertAt (a : ℕ → α) {n pos : ℕ} (hpos : pos ≤ n) (x y : α) :
    Has (insertAt a n pos x) (n + 1) y ↔ y = x ∨ Has a n y := by
  constructor
  · rintro ⟨j, hj, rfl⟩
    rw [insertAt_apply a x (by omega)]
    split
    · exact Or.inr ⟨j, by omega, rfl⟩
    · split
      · exact Or.inl rfl
      · exact Or.inr ⟨j - 1, by omega, rfl⟩
  · rintro (rfl | ⟨j, hj, rfl⟩)
    · exact ⟨pos, by omega, by rw [insertAt_apply a y hpos]; simp⟩
    · by_cases hlt : j < pos
      · exact ⟨j, by omega, by rw [insertAt_apply a x (by omega), if_pos hlt]⟩
      · refine ⟨j + 1, by omega, ?_⟩
        rw [insertAt_apply a x (by omega), if_neg (by omega), if_neg (by omega),
          Nat.add_sub_cancel]

/-- A removal removes exactly the cell at `pos`. -/
theorem has_shiftLeft (a : ℕ → α) {n pos : ℕ} (hpos : pos < n) (y : α) :
    Has (shiftLeft a pos n) (n - 1) y ↔ ∃ i < n, i ≠ pos ∧ a i = y := by
  constructor
  · rintro ⟨j, hj, rfl⟩
    rw [shiftLeft_apply a hpos]
    split
    · exact ⟨j + 1, by omega, by omega, rfl⟩
    · exact ⟨j, by omega, by omega, rfl⟩
  · rintro ⟨i, hi, hne, rfl⟩
    rcases Nat.lt_or_gt_of_ne hne with hlt | hgt
    · exact ⟨i, by omega, by rw [shiftLeft_apply a hpos, if_neg (by omega)]⟩
    · refine ⟨i - 1, by omega, ?_⟩
      rw [shiftLeft_apply a hpos, if_pos (by omega), Nat.sub_add_cancel (by omega)]

section Order

variable {r : κ → κ → Prop} {key : α → κ} {a : ℕ → α} {n : ℕ}

/-- An insertion at the insertion point of its key keeps the prefix sorted. -/
theorem Sorted.insertAt (hsorted : Sorted r key a n) {pos : ℕ} (hpos : pos ≤ n) {x : α}
    (hbelow : ∀ i < pos, r (key (a i)) (key x))
    (habove : ∀ i, pos ≤ i → i < n → r (key x) (key (a i))) :
    Sorted r key (insertAt a n pos x) (n + 1) := by
  intro i j hij hj
  rw [insertAt_apply a x (by omega), insertAt_apply a x (by omega)]
  rcases lt_trichotomy i pos with hi | rfl | hi
  · rw [if_pos hi]
    rcases lt_trichotomy j pos with hj' | rfl | hj'
    · rw [if_pos hj']
      exact hsorted i j hij (by omega)
    · rw [if_neg (by omega), if_pos rfl]
      exact hbelow i hi
    · rw [if_neg (by omega), if_neg (by omega)]
      exact hsorted i (j - 1) (by omega) (by omega)
  · rw [if_neg (by omega), if_pos rfl, if_neg (by omega), if_neg (by omega)]
    exact habove (j - 1) (by omega) (by omega)
  · rw [if_neg (by omega), if_neg (by omega), if_neg (by omega), if_neg (by omega)]
    exact hsorted (i - 1) (j - 1) (by omega) (by omega)

/-- A removal keeps the prefix sorted. -/
theorem Sorted.shiftLeft (hsorted : Sorted r key a n) {pos : ℕ} (hpos : pos < n) :
    Sorted r key (shiftLeft a pos n) (n - 1) := by
  intro i j hij hj
  rw [shiftLeft_apply a hpos, shiftLeft_apply a hpos]
  split <;> split <;> exact hsorted _ _ (by omega) (by omega)

/-- Replacing a cell by one with the same key keeps the prefix sorted. -/
theorem Sorted.update (hsorted : Sorted r key a n) {i : ℕ} {x : α} (hkey : key x = key (a i)) :
    Sorted r key (Function.update a i x) n := by
  have hsame (j : ℕ) : key (Function.update a i x j) = key (a j) := by
    by_cases hj : j = i
    · subst hj
      rw [Function.update_self, hkey]
    · rw [Function.update_of_ne hj]
  intro c d hcd hd
  rw [hsame, hsame]
  exact hsorted c d hcd hd

end Order

end SortedPrefix
