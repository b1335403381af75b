import NanoRing.Common.SortedPrefix

/-!
# Sorted array prefixes with checked accesses

The loops over a sorted prefix once more, for an array of fixed size in which every access
is checked: a read must be inside the array and below the count, a write inside the array.
A search must also close its window before its fuel runs out. When the prefix fits in the
array no check fails, and each loop gives what the unchecked one does.
-/

namespace SortedPrefix

variable {α : Type*}

/-- `a[i]`, for an index inside the array and below the count. -/
def readAt (a : ℕ → α) (size n i : ℕ) : Option α := if i < size ∧ i < n then some (a i) else none

/-- `a[i] = x`, for an index inside the array. -/
def writeAt (a : ℕ → α) (size i : ℕ) (x : α) : Option (ℕ → α) :=
  if i < size then some (Function.update a i x) else none

/-- `search` on the cells of the array. -/
def searchChecked (a : ℕ → α) (size n : ℕ) (hit goRight : α → Bool) : ℕ → ℤ → ℤ → Option ℤ
  | 0, lo, hi => if lo ≤ hi then none else some (-(lo + 1))
  | fuel + 1, lo, hi =>
    if lo ≤ hi then
      let mid := (lo + hi) / 2
      (mid.toNat?.bind (readAt a size n)).bind fun x =>
        if hit x then some mid
        else if goRight x then searchChecked a size n hit goRight fuel (mid + 1) hi
        else searchChecked a size n hit goRight fuel lo (mid - 1)
    else some (-(lo + 1))

/-- `shiftRight`, for a prefix of `n` cells. -/
def shiftRightChecked (size n pos : ℕ) (a : ℕ → α) : ℕ → Option (ℕ → α)
  | 0 => some a
  | i + 1 =>
    if i + 1 > pos then
      (readAt a size n i).bind fun x => (writeAt a size (i + 1) x).bind fun a =>
        shiftRightChecked size n pos a i
    else some a

/-- One iteration of `shiftLeft`. -/
def shiftLeftStep (size n : ℕ) (a : ℕ → α) (j : ℕ) : Option (ℕ → α) :=
  (readAt a size n (j + 1)).bind (writeAt a size j)

/-- `shiftLeft`, for a prefix of `n` cells. -/
def shiftLeftChecked (size n pos : ℕ) (a : ℕ → α) : Option (ℕ → α) :=
  (List.range' pos (n - 1 - pos)).foldlM (shiftLeftStep size n) a

variable {size n : ℕ}

theorem readAt_eq (a : ℕ → α) (hn : n ≤ size) {i : ℕ} (hi : i < n) :
    readAt a size n i = some (a i) := by
  rw [readAt, if_pos ⟨by omega, hi⟩]

theorem writeAt_eq (a : ℕ → α) {i : ℕ} (hi : i < size) (x : α) :
    writeAt a size i x = some (Function.update a i x) := by
  rw [writeAt, if_pos hi]

/-- A search of a window inside the prefix reads only cells of the window. -/
theorem searchChecked_eq (a : ℕ → α) (hn : n ≤ size) (hit goRight : α → Bool) (fuel lo hi : ℕ)
    (hfuel : hi ≤ lo + fuel) (hlo : lo ≤ hi) (hhi : hi ≤ n) :
    searchChecked a size n hit goRight fuel lo ((hi : ℤ) - 1) =
      some (search (fun i => hit (a i)) (fun i => goRight (a i)) fuel lo ((hi : ℤ) - 1)) := by
  induction fuel generalizing lo hi with
  | zero => rw [searchChecked, search, if_neg (by omega)]
  | succ fuel ih =>
    rw [searchChecked, search]
    by_cases hwindow : (lo : ℤ) ≤ (hi : ℤ) - 1
    · obtain ⟨mid, hmid⟩ : ∃ mid : ℕ, ((lo : ℤ) + ((hi : ℤ) - 1)) / 2 = mid :=
        ⟨(lo + hi - 1) / 2, by omega⟩
      have hread : (mid : ℤ).toNat?.bind (readAt a size n) = some (a mid) :=
        readAt_eq a hn (by omega)
      rw [if_pos hwindow, if_pos hwindow]
      simp only [hmid, Int.toNat_natCast, hread, Option.bind_some]
      split
      · rfl
      · split
        · exact ih (mid + 1) hi (by omega) (by omega) hhi
        · exact ih lo mid (by omega) (by omega) (by omega)
    · rw [if_neg hwindow, if_neg hwindow]

/-- Shifting right stays inside an array with room for one more cell. -/
theorem shiftRightChecked_eq (a : ℕ → α) (hn : n < size) (pos : ℕ) {i : ℕ} (hi : i ≤ n) :
    shiftRightChecked size n pos a i = some (shiftRight a pos i) := by
  induction i generalizing a with
  | zero => rfl
  | succ i ih =>
    rw [shiftRightChecked, shiftRight]
    split
    · rw [readAt_eq a (by omega) (by omega), Option.bind_some, writeAt_eq a (by omega),
        Option.bind_some]
      exact ih _ (by omega)
    · rfl

/-- Iterations of the left shift stay inside the prefix. -/
theorem foldlM_shiftLeftStep (a : ℕ → α) (hn : n ≤ size) (pos len : ℕ) (hlen : pos + len < n) :
    (List.range' pos len).foldlM (shiftLeftStep size n) a =
      some ((List.range' pos len).foldl (fun a j => Function.update a j (a (j + 1))) a) := by
  induction len generalizing pos a with
  | zero => rfl
  | succ len ih =>
    rw [List.range'_succ, List.foldlM_cons, List.foldl_cons, shiftLeftStep,
      readAt_eq a hn (by omega), Option.bind_some, writeAt_eq a (by omega), Option.bind_eq_bind,
      Option.bind_some]
    exact ih _ (pos + 1) (by omega)

/-- Shifting left stays inside the prefix. -/
theorem shiftLeftChecked_eq (a : ℕ → α) (hn : n ≤ size) {pos : ℕ} (hpos : pos < n) :
    shiftLeftChecked size n pos a = some (shiftLeft a pos n) :=
  foldlM_shiftLeftStep a hn pos (n - 1 - pos) (by omega)

end SortedPrefix
