import Mathlib.Data.Nat.Notation

/-!
# Loops over blocks

The loop `for (; i + width <= n; i += width)`, whose body reads a block of `width` elements
and may fail. It stops with fewer than `width` elements left over; with `width` one it
reaches the end.
-/

namespace BlockLoop

variable {σ : Type*}

/-- The loop with a bound on its iterations. -/
def loop (width n : ℕ) (body : ℕ → σ → Option σ) : ℕ → ℕ → σ → Option (ℕ × σ)
  | 0, _, _ => none
  | budget + 1, i, s =>
    if i + width ≤ n then do
      let s ← body i s
      loop width n body budget (i + width) s
    else some (i, s)

/-- The loop from index `i`: the index and the state behind it. -/
def forBlocks (width n : ℕ) (body : ℕ → σ → Option σ) (i : ℕ) (s : σ) : Option (ℕ × σ) :=
  loop width n body (n - i + 1) i s

/-- The end of the last complete block among `n` elements. -/
def blocksEnd (width n : ℕ) : ℕ := width * (n / width)

theorem blocksEnd_le (width n : ℕ) : blocksEnd width n ≤ n := Nat.mul_div_le n width

/-- A multiple of the width that leaves no complete block is that end. -/
theorem eq_blocksEnd {width n last : ℕ} (hdvd : width ∣ last) (hle : last ≤ n)
    (hlt : n < last + width) : last = blocksEnd width n := by
  obtain ⟨k, rfl⟩ := hdvd
  rw [blocksEnd, Nat.div_eq_of_lt_le]
  · rwa [Nat.mul_comm]
  · rwa [Nat.succ_mul, Nat.mul_comm]

/-- A block that starts at a multiple of the width and fits ends in front of that end. -/
theorem add_le_blocksEnd {width n i : ℕ} (hwidth : 0 < width) (hdvd : width ∣ i)
    (hi : i + width ≤ n) : i + width ≤ blocksEnd width n := by
  obtain ⟨k, rfl⟩ := hdvd
  rw [← Nat.mul_succ] at hi ⊢
  exact Nat.mul_le_mul_left width ((Nat.le_div_iff_mul_le hwidth).mpr (by rwa [Nat.mul_comm]))

/-- A loop whose body takes the value of `f` at every block to the value behind the block
ends with the value at an index that leaves no complete block. -/
theorem loop_eq {width n : ℕ} {body : ℕ → σ → Option σ} (f : ℕ → σ) (hwidth : 0 < width)
    {budget i : ℕ}
    (hbody : ∀ k, i ≤ k → width ∣ k → k + width ≤ n → body k (f k) = some (f (k + width)))
    (hdvd : width ∣ i) (hi : i ≤ n) (hbudget : n - i < budget) :
    loop width n body budget i (f i) = some (blocksEnd width n, f (blocksEnd width n)) := by
  induction budget generalizing i with
  | zero => exact absurd hbudget (Nat.not_lt_zero _)
  | succ budget ih =>
    unfold loop
    by_cases hblock : i + width ≤ n
    · rw [if_pos hblock, hbody i (Nat.le_refl i) hdvd hblock, Option.bind_eq_bind, Option.bind_some]
      exact ih (fun k hk => hbody k (Nat.le_of_add_right_le hk))
        (Nat.dvd_add hdvd (Nat.dvd_refl width)) hblock (by omega)
    · rw [if_neg hblock, eq_blocksEnd hdvd hi (by omega)]

/-- The loop from the first element stops at the end of the last complete block. -/
theorem forBlocks_zero_eq {width n : ℕ} {body : ℕ → σ → Option σ} (f : ℕ → σ) (hwidth : 0 < width)
    (hbody : ∀ k, width ∣ k → k + width ≤ n → body k (f k) = some (f (k + width))) :
    forBlocks width n body 0 (f 0) = some (blocksEnd width n, f (blocksEnd width n)) :=
  loop_eq f hwidth (fun k _ => hbody k) (Nat.dvd_zero width) (Nat.zero_le n) (Nat.lt_succ_self _)

/-- The loop over single elements reaches the end. -/
theorem forBlocks_one_eq {n : ℕ} {body : ℕ → σ → Option σ} (f : ℕ → σ) {i : ℕ} (hi : i ≤ n)
    (hbody : ∀ k, i ≤ k → k < n → body k (f k) = some (f (k + 1))) :
    forBlocks 1 n body i (f i) = some (n, f n) := by
  have hloop := loop_eq f Nat.one_pos (fun k hk _ hlt => hbody k hk hlt) (Nat.one_dvd i) hi
    (Nat.lt_succ_self (n - i))
  rwa [blocksEnd, Nat.div_one, Nat.one_mul] at hloop

end BlockLoop
