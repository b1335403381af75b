import Mathlib.Data.Nat.Notation
import Mathlib.Logic.Function.Basic

/-!
# Rings that hold a window of a sequence

A ring of slots is indexed by sequence numbers modulo its capacity. It holds a window when
each sequence number of the window finds its own item in its slot. Writing the next item
keeps every window that is shorter than the capacity, and no other slot of such a window.
-/

namespace RingWindow

variable {α : Type*} {capacity lo hi : ℕ} {slots : ℕ → α} {item : ℕ → α}

/-- Every sequence number from `lo` up to `hi` finds its item in its slot. -/
def Holds (capacity : ℕ) (slots item : ℕ → α) (lo hi : ℕ) : Prop :=
  ∀ s, lo ≤ s → s < hi → slots (s % capacity) = item s

/-- Sequence numbers less than a capacity apart have different slots. -/
theorem slot_ne {s t : ℕ} (hlt : s < t) (hnear : t < s + capacity) : s % capacity ≠ t % capacity := by
  intro heq
  have hdvd := Nat.dvd_of_mod_eq_zero (Nat.sub_mod_eq_zero_of_mod_eq heq.symm)
  have hle := Nat.le_of_dvd (by omega) hdvd
  omega

/-- A ring holds an empty window. -/
theorem holds_of_le (h : hi ≤ lo) : Holds capacity slots item lo hi := by
  intro s hlo hhi
  omega

/-- A ring that holds a window holds every part of it. -/
theorem Holds.mono (h : Holds capacity slots item lo hi) {lo' hi' : ℕ} (hlo : lo ≤ lo')
    (hhi : hi' ≤ hi) : Holds capacity slots item lo' hi' :=
  fun s hs hs' => h s (Nat.le_trans hlo hs) (Nat.lt_of_lt_of_le hs' hhi)

/-- Only the items of the window matter. -/
theorem Holds.congr (h : Holds capacity slots item lo hi) {item' : ℕ → α}
    (hitem : ∀ s, s < hi → item' s = item s) : Holds capacity slots item' lo hi :=
  fun s hlo hhi => (h s hlo hhi).trans (hitem s hhi).symm

/-- Writing the next item extends a window that is shorter than the capacity. -/
theorem Holds.write (h : Holds capacity slots item lo hi) (hroom : hi < lo + capacity) :
    Holds capacity (Function.update slots (hi % capacity) (item hi)) item lo (hi + 1) := by
  intro s hlo hs
  rcases Nat.lt_succ_iff_lt_or_eq.mp hs with hlt | rfl
  · rw [Function.update_of_ne (slot_ne hlt (by omega))]
    exact h s hlo hlt
  · rw [Function.update_self]

end RingWindow
