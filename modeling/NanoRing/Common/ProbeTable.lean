import NanoRing.Common.ProbeLoop
import Mathlib.Data.Finset.Card
import Mathlib.Data.Finset.Range
import Mathlib.Logic.Function.Basic

/-!
# Open-addressing tables with linear probing

A table is a cyclic array of cells. A cell has never been used, holds an entry, or held
one that was deleted. A lookup follows the probe path of its key and stops at a cell
that was never used; an insertion stops at the first cell without an entry, or at the
key's own entry if it meets that first.

`Probed` is the invariant that makes lookups complete, and `Distinct` the one that makes
their answer unique. Insertions do not look past a deleted cell, so the second one is a
real obligation of the caller: `Shadowed` says exactly when it would be lost.
-/

namespace ProbeTable

open ProbeLoop

/-- The state of one array cell. -/
inductive Cell (K V : Type*)
  | never
  | deleted
  | full (key : K) (value : V)

/-- A cyclic array of cells; only indices below the capacity are part of the table. -/
structure Table (K V : Type*) where
  capacity : ℕ
  cell : ℕ → Cell K V

variable {K V : Type*}

/-- The entry test of a cell. -/
def Cell.isFull : Cell K V → Bool
  | .full _ _ => true
  | _ => false

/-- Whether the cell was never used. -/
def Cell.isNever : Cell K V → Bool
  | .never => true
  | _ => false

/-- The stored value of a cell, if it has an entry. -/
def Cell.value? : Cell K V → Option V
  | .full _ value => some value
  | _ => none

@[simp] theorem Cell.isFull_full (key : K) (value : V) : (Cell.full key value).isFull = true := rfl

@[simp] theorem Cell.isFull_never : (Cell.never : Cell K V).isFull = false := rfl

@[simp] theorem Cell.isFull_deleted : (Cell.deleted : Cell K V).isFull = false := rfl

namespace Table

/-- Advance one index, wrapping at the capacity. -/
def next (t : Table K V) (i : ℕ) : ℕ := (i + 1) % t.capacity

theorem next_eq (t : Table K V) (i : ℕ) : t.next i = (i + 1) % t.capacity := rfl

/-- The table with one cell replaced. -/
def set (t : Table K V) (i : ℕ) (c : Cell K V) : Table K V :=
  { t with cell := Function.update t.cell i c }

@[simp] theorem set_capacity (t : Table K V) (i : ℕ) (c : Cell K V) :
    (t.set i c).capacity = t.capacity := rfl

@[simp] theorem set_cell_self (t : Table K V) (i : ℕ) (c : Cell K V) : (t.set i c).cell i = c := by
  simp only [set, Function.update_self]

theorem set_cell_of_ne (t : Table K V) {i j : ℕ} (h : j ≠ i) (c : Cell K V) :
    (t.set i c).cell j = t.cell j := by
  simp only [set, Function.update_of_ne h]

/-- Some cell of the table stores this entry. -/
def Holds (t : Table K V) (k : K) (v : V) : Prop := ∃ i < t.capacity, t.cell i = .full k v

/-- No key has entries in two cells. -/
def Distinct (t : Table K V) : Prop :=
  ∀ i < t.capacity, ∀ j < t.capacity, ∀ k v w, t.cell i = .full k v → t.cell j = .full k w → i = j

/-- The number of cells that store an entry. -/
def count (t : Table K V) : ℕ := ((Finset.range t.capacity).filter fun i => (t.cell i).isFull).card

/-- Every entry is reached from its home without passing a cell that was never used. -/
def Probed (hash : K → ℕ) (t : Table K V) : Prop :=
  ∀ i < t.capacity, ∀ k v, t.cell i = .full k v →
    ∃ d < t.capacity, (hash k + d) % t.capacity = i ∧
      ∀ e < d, t.cell ((hash k + e) % t.capacity) ≠ .never

/-- A cell without an entry precedes the key's own entry on its probe path. -/
def Shadowed (hash : K → ℕ) (t : Table K V) (k : K) : Prop :=
  ∃ d e, d < e ∧ e < t.capacity ∧ (t.cell ((hash k + d) % t.capacity)).isFull = false ∧
    ∃ v, t.cell ((hash k + e) % t.capacity) = .full k v

variable [DecidableEq K]

/-- One step of a lookup: an unused cell ends the search, the key's entry answers it. -/
def lookupVisit (t : Table K V) (k : K) (i : ℕ) : Option (Option ℕ) :=
  match t.cell i with
  | .never => some none
  | .deleted => none
  | .full key _ => if key = k then some (some i) else none

/-- The index of the key's entry, as found along its probe path. -/
def locate (hash : K → ℕ) (t : Table K V) (k : K) : Option ℕ :=
  (probe (t.lookupVisit k) t.next t.capacity (hash k % t.capacity)).join

/-- The value of the key's entry, as found along its probe path. -/
def lookup (hash : K → ℕ) (t : Table K V) (k : K) : Option V :=
  (t.locate hash k).bind fun i => (t.cell i).value?

/-- One step of an insertion: it ends at a cell without an entry and at the key's entry. -/
def insertVisit (t : Table K V) (k : K) (i : ℕ) : Option ℕ :=
  match t.cell i with
  | .full key _ => if key = k then some i else none
  | _ => some i

/-- The index that an insertion of the key writes. -/
def insertionSlot (hash : K → ℕ) (t : Table K V) (k : K) : Option ℕ :=
  probe (t.insertVisit k) t.next t.capacity (hash k % t.capacity)

/-- Store an entry where the insertion loop stops. -/
def insert (hash : K → ℕ) (t : Table K V) (k : K) (v : V) : Table K V :=
  match t.insertionSlot hash k with
  | some i => t.set i (.full k v)
  | none => t

/-- Mark the located entry as deleted. -/
def erase (hash : K → ℕ) (t : Table K V) (k : K) : Table K V :=
  match t.locate hash k with
  | some i => t.set i .deleted
  | none => t

/-! ## Where the two loops stop -/

section Loops

variable {t : Table K V} {k : K} {i : ℕ}

/-- A lookup passes a cell exactly when the cell was used and does not store the key. -/
theorem lookupVisit_eq_none_iff :
    t.lookupVisit k i = none ↔ t.cell i ≠ .never ∧ ∀ v, t.cell i ≠ .full k v := by
  unfold lookupVisit
  split <;> rename_i heq <;> simp [heq]

/-- A lookup answers with an index exactly at the key's own entry there. -/
theorem lookupVisit_eq_some_some_iff {j : ℕ} :
    t.lookupVisit k i = some (some j) ↔ i = j ∧ ∃ v, t.cell i = .full k v := by
  unfold lookupVisit
  split <;> rename_i heq <;> simp [heq, and_comm]

/-- An insertion passes a cell exactly when it stores an entry of another key. -/
theorem insertVisit_eq_none_iff :
    t.insertVisit k i = none ↔ (t.cell i).isFull = true ∧ ∀ v, t.cell i ≠ .full k v := by
  unfold insertVisit
  split
  · rename_i heq
    simp [heq]
  · rename_i hfull
    cases hc : t.cell i with
    | full key value => exact absurd hc (hfull key value)
    | never => simp
    | deleted => simp

/-- An insertion that ends at a cell ends with the cell's own index. -/
theorem insertVisit_eq_some_iff {j : ℕ} :
    t.insertVisit k i = some j ↔
      i = j ∧ ((t.cell i).isFull = false ∨ ∃ v, t.cell i = .full k v) := by
  unfold insertVisit
  split
  · rename_i heq
    simp [heq, and_comm]
  · rename_i hfull
    cases hc : t.cell i with
    | full key value => exact absurd hc (hfull key value)
    | never => simp
    | deleted => simp

variable {hash : K → ℕ}

/-- A located index is the first on the probe path that stores the key, and no cell before
it was never used. -/
theorem locate_eq_some_iff :
    t.locate hash k = some i ↔
      ∃ d < t.capacity, (hash k + d) % t.capacity = i ∧ (∃ v, t.cell i = .full k v) ∧
        ∀ e < d, t.cell ((hash k + e) % t.capacity) ≠ .never ∧
          ∀ v, t.cell ((hash k + e) % t.capacity) ≠ .full k v := by
  unfold locate
  rw [Option.join_eq_some_iff, probe_eq_some_iff t.next_eq]
  simp only [lookupVisit_eq_some_some_iff, lookupVisit_eq_none_iff]
  constructor
  · rintro ⟨d, hd, ⟨rfl, hfull⟩, hbefore⟩
    exact ⟨d, hd, rfl, hfull, hbefore⟩
  · rintro ⟨d, hd, rfl, hfull, hbefore⟩
    exact ⟨d, hd, ⟨rfl, hfull⟩, hbefore⟩

/-- An insertion writes the first index on the probe path that has no entry of another key. -/
theorem insertionSlot_eq_some_iff :
    t.insertionSlot hash k = some i ↔
      ∃ d < t.capacity, (hash k + d) % t.capacity = i ∧
        ((t.cell i).isFull = false ∨ ∃ v, t.cell i = .full k v) ∧
        ∀ e < d, (t.cell ((hash k + e) % t.capacity)).isFull = true ∧
          ∀ v, t.cell ((hash k + e) % t.capacity) ≠ .full k v := by
  unfold insertionSlot
  rw [probe_eq_some_iff t.next_eq]
  simp only [insertVisit_eq_some_iff, insertVisit_eq_none_iff]
  constructor
  · rintro ⟨d, hd, ⟨rfl, hstop⟩, hbefore⟩
    exact ⟨d, hd, rfl, hstop, hbefore⟩
  · rintro ⟨d, hd, rfl, hstop, hbefore⟩
    exact ⟨d, hd, ⟨rfl, hstop⟩, hbefore⟩

/-- A located index is inside the table and stores the key. -/
theorem locate_spec (h : t.locate hash k = some i) :
    i < t.capacity ∧ ∃ v, t.cell i = .full k v := by
  obtain ⟨d, hd, rfl, hfull, -⟩ := locate_eq_some_iff.mp h
  exact ⟨Nat.mod_lt _ (by omega), hfull⟩

/-- The insertion loop ends when some cell of the table has no entry. -/
theorem insertionSlot_isSome (hash : K → ℕ) (k : K)
    (hfree : ∃ j < t.capacity, (t.cell j).isFull = false) : ∃ j, t.insertionSlot hash k = some j := by
  obtain ⟨j, hj, hfree⟩ := hfree
  obtain ⟨d, hd, rfl⟩ := exists_distance (hash k) hj
  rw [← Option.isSome_iff_exists, Option.isSome_iff_ne_none]
  intro hnone
  have hpass := (probe_eq_none_iff t.next_eq (hash k) t.capacity).mp hnone d hd
  rw [(insertVisit_eq_none_iff.mp hpass).1] at hfree
  contradiction

end Loops

end Table

end ProbeTable
