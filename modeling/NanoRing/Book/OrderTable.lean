import NanoRing.Book.FlatOrderMap
import NanoRing.Common.ProbeGrow
import Mathlib.Data.Nat.Bitwise

/-!
# The flat order map as an open-addressing table

A slot is a cell: an occupied one holds an entry, and an unoccupied one was never used
exactly when its reference is `EMPTY`. Under this reading every loop of the map is the
corresponding loop of the table, so the map inherits the rules of the table. `WellFormed`
collects what holds in every reachable state whatever the keys; distinctness of the keys
is not part of it, because `insert` can lose it.
-/

namespace NanoRing

namespace FlatOrderMap

open ProbeLoop ProbeTable

variable {m : FlatOrderMap} {k : UInt64} {o : LiveOrder}

/-- The hash as the natural number that is reduced modulo the capacity. -/
def hashIndex (key : UInt64) : ℕ := (hash key).toNat

/-- The cell that a slot represents. -/
def cellOf (slot : LiveOrder) : Cell UInt64 LiveOrder :=
  if slot.occupied then .full slot.orderRef slot
  else if slot.orderRef == EMPTY then .never
  else .deleted

/-- The table that the map represents. -/
def table (m : FlatOrderMap) : Table UInt64 LiveOrder where
  capacity := m.capacity
  cell := fun i => cellOf (m.slots i)

@[simp] theorem table_capacity (m : FlatOrderMap) : m.table.capacity = m.capacity := rfl

@[simp] theorem table_cell (m : FlatOrderMap) (i : ℕ) : m.table.cell i = cellOf (m.slots i) := rfl

@[simp] theorem isFull_cellOf (slot : LiveOrder) : (cellOf slot).isFull = slot.occupied := by
  unfold cellOf
  cases slot.occupied <;> cases slot.orderRef == EMPTY <;> rfl

/-- A slot holds the entry of a reference exactly when it is occupied under it. -/
theorem cellOf_eq_full_iff {slot value : LiveOrder} :
    cellOf slot = .full k value ↔ slot.occupied = true ∧ slot.orderRef = k ∧ slot = value := by
  unfold cellOf
  cases slot.occupied <;> cases slot.orderRef == EMPTY <;> simp

/-- Replacing a slot replaces its cell. -/
theorem table_update (m : FlatOrderMap) (i : ℕ) (slot : LiveOrder) (size : ℕ) :
    table { m with slots := Function.update m.slots i slot, size := size } =
      m.table.set i (cellOf slot) := by
  simp only [table, Table.set, Table.mk.injEq, true_and]
  funext j
  exact Function.apply_update (fun _ => cellOf) m.slots i slot j

/-! ## The loops of the map are the loops of the table -/

/-- The capacity is a power of two and the mask selects the residue modulo it. -/
def Shaped (m : FlatOrderMap) : Prop := (∃ e, m.capacity = 2 ^ e) ∧ m.mask = m.capacity - 1

/-- Masking an index reduces it modulo the capacity. -/
theorem Shaped.and_mask (h : m.Shaped) (i : ℕ) : i &&& m.mask = i % m.capacity := by
  obtain ⟨⟨e, he⟩, hmask⟩ := h
  rw [hmask, he, Nat.and_two_pow_sub_one_eq_mod]

theorem Shaped.next_eq (h : m.Shaped) (i : ℕ) : m.next i = m.table.next i := h.and_mask (i + 1)

theorem Shaped.home_eq (h : m.Shaped) (k : UInt64) : m.home k = hashIndex k % m.capacity :=
  h.and_mask _

theorem findVisit_eq (m : FlatOrderMap) (k : UInt64) (i : ℕ) :
    m.findVisit k i = m.table.lookupVisit k i := by
  simp only [findVisit, Table.lookupVisit, table_cell, cellOf]
  cases hocc : (m.slots i).occupied <;> cases href : (m.slots i).orderRef == EMPTY <;> simp

/-- `find` locates the key in the table. -/
theorem Shaped.find_eq (h : m.Shaped) (k : UInt64) : m.find k = m.table.locate hashIndex k := by
  rw [find, Table.locate, h.home_eq, probe_congr (m.findVisit_eq k) h.next_eq, table_capacity]

/-- The slot that `find` returns holds the entry of its reference. -/
theorem Shaped.cell_of_find (h : m.Shaped) {k : UInt64} {i : ℕ} (hfind : m.find k = some i) :
    i < m.capacity ∧ m.table.cell i = .full k (m.slots i) := by
  rw [h.find_eq] at hfind
  obtain ⟨hi, v, hcell⟩ := Table.locate_spec hfind
  obtain ⟨-, -, rfl⟩ := cellOf_eq_full_iff.mp hcell
  exact ⟨hi, hcell⟩

/-- The record behind the pointer of `find` is the value of the key in the table. -/
theorem Shaped.lookup_eq (h : m.Shaped) (k : UInt64) : m.lookup k = m.table.lookup hashIndex k := by
  rw [lookup, Table.lookup, ← h.find_eq]
  cases hfind : m.find k with
  | none => rfl
  | some i =>
    rw [Option.bind_some, (h.cell_of_find hfind).2]
    rfl

/-- The map that an insertion into slot `i` returns. -/
def insertAt (m : FlatOrderMap) (k : UInt64) (o : LiveOrder) (i : ℕ) : FlatOrderMap :=
  { m with
    slots := Function.update m.slots i (stored k o)
    size := if (m.slots i).occupied then m.size else m.size + 1 }

theorem insertVisit_eq (m : FlatOrderMap) (k : UInt64) (o : LiveOrder) (i : ℕ) :
    m.insertVisit k o i = (m.table.insertVisit k i).map (m.insertAt k o) := by
  simp only [insertVisit, Table.insertVisit, table_cell, cellOf]
  cases hocc : (m.slots i).occupied with
  | false => cases href : (m.slots i).orderRef == EMPTY <;> simp [insertAt, hocc]
  | true => by_cases href : (m.slots i).orderRef = k <;> simp [insertAt, hocc, href]

/-- The insertion loop returns the map written at the slot where the table's loop stops. -/
theorem Shaped.insert_loop_eq (h : m.Shaped) (k : UInt64) (o : LiveOrder) :
    probe (m.insertVisit k o) m.next m.capacity (m.home k) =
      (m.table.insertionSlot hashIndex k).map (m.insertAt k o) := by
  rw [h.home_eq, probe_congr (m.insertVisit_eq k o) h.next_eq, probe_map]
  rfl

/-- The map that an erasure of the entry at slot `i` returns. -/
def eraseAt (m : FlatOrderMap) (i : ℕ) : FlatOrderMap :=
  let freed := { m.slots i with occupied := false, orderRef := TOMBSTONE }
  { m with slots := Function.update m.slots i freed, size := m.size - 1 }

theorem eraseVisit_eq (m : FlatOrderMap) (k : UInt64) (i : ℕ) :
    m.eraseVisit k i = (m.table.lookupVisit k i).map fun found => found.elim m m.eraseAt := by
  simp only [eraseVisit, Table.lookupVisit, table_cell, cellOf]
  cases hocc : (m.slots i).occupied with
  | false => cases href : (m.slots i).orderRef == EMPTY <;> simp
  | true => by_cases href : (m.slots i).orderRef = k <;> simp [eraseAt, href]

/-- `erase` frees the slot that `find` locates, and does nothing when there is none. -/
theorem Shaped.erase_eq (h : m.Shaped) (k : UInt64) : m.erase k = (m.find k).elim m m.eraseAt := by
  rw [erase, find, h.home_eq, probe_congr (m.eraseVisit_eq k) h.next_eq, probe_map,
    probe_congr (m.findVisit_eq k) h.next_eq]
  rcases probe (m.table.lookupVisit k) m.table.next m.capacity (hashIndex k % m.capacity) with
    _ | _ | i <;> rfl

theorem Shaped.erase_of_find (h : m.Shaped) {k : UInt64} {i : ℕ} (hfind : m.find k = some i) :
    m.erase k = m.eraseAt i := by
  rw [h.erase_eq, hfind, Option.elim_some]

theorem Shaped.erase_of_absent (h : m.Shaped) {k : UInt64} (hfind : m.find k = none) :
    m.erase k = m := by
  rw [h.erase_eq, hfind, Option.elim_none]

/-- A freed slot is a deleted cell: `TOMBSTONE` is not `EMPTY`. -/
theorem table_eraseAt (m : FlatOrderMap) (i : ℕ) : (m.eraseAt i).table = m.table.set i .deleted :=
  m.table_update i _ _

theorem table_insertAt (m : FlatOrderMap) (k : UInt64) (o : LiveOrder) (i : ℕ) :
    (m.insertAt k o i).table = m.table.set i (.full k (stored k o)) :=
  m.table_update i _ _

/-- Erasing from the map erases from the table. -/
theorem Shaped.table_erase (h : m.Shaped) (k : UInt64) :
    (m.erase k).table = m.table.erase hashIndex k := by
  rw [h.erase_eq, h.find_eq, Table.erase]
  cases m.table.locate hashIndex k with
  | none => rfl
  | some i => exact m.table_eraseAt i

/-! ## Growth -/

/-- The table that an array of slots represents at a given capacity. -/
def slotTable (capacity : ℕ) (slots : ℕ → LiveOrder) : Table UInt64 LiveOrder :=
  ⟨capacity, fun i => cellOf (slots i)⟩

theorem slotTable_update (capacity : ℕ) (slots : ℕ → LiveOrder) (i : ℕ) (slot : LiveOrder) :
    slotTable capacity (Function.update slots i slot) =
      (slotTable capacity slots).set i (cellOf slot) := by
  simp only [slotTable, Table.set, Table.mk.injEq, true_and]
  funext j
  exact Function.apply_update (fun _ => cellOf) slots i slot j

/-- The inner loop of `rehash` searches the new table for a free cell. -/
theorem rehashSlot_eq {newCap e : ℕ} (he : newCap = 2 ^ e) (newSlots : ℕ → LiveOrder) (k : UInt64) :
    rehashSlot newSlots newCap (newCap - 1) k =
      (slotTable newCap newSlots).freeSlot hashIndex k := by
  have hmask (i : ℕ) : i &&& (newCap - 1) = i % newCap := by
    rw [he, Nat.and_two_pow_sub_one_eq_mod]
  rw [rehashSlot, Table.freeSlot, hmask]
  refine probe_congr (fun i => ?_) (fun i => hmask (i + 1)) _ _
  simp only [slotTable, isFull_cellOf]

/-- One iteration of `rehash` moves one cell. -/
theorem rehashStep_eq {newCap e : ℕ} (he : newCap = 2 ^ e) (m : FlatOrderMap)
    (newSlots : ℕ → LiveOrder) (i : ℕ) :
    slotTable newCap (m.rehashStep newCap (newCap - 1) newSlots i) =
      Table.moveCell hashIndex m.table (slotTable newCap newSlots) i := by
  unfold rehashStep Table.moveCell
  cases hocc : (m.slots i).occupied with
  | false =>
    rw [table_cell]
    cases hcell : cellOf (m.slots i) with
    | full key value => simp [cellOf_eq_full_iff, hocc] at hcell
    | never => simp
    | deleted => simp
  | true =>
    have hcell : cellOf (m.slots i) = .full (m.slots i).orderRef (m.slots i) :=
      cellOf_eq_full_iff.mpr ⟨hocc, rfl, rfl⟩
    simp only [table_cell, hcell, if_true, rehashSlot_eq he, Table.place]
    cases (slotTable newCap newSlots).freeSlot hashIndex (m.slots i).orderRef with
    | none => rfl
    | some idx => exact (slotTable_update newCap newSlots idx (m.slots i)).trans (by rw [hcell])

/-- Rehashing the map grows the table. -/
theorem Shaped.table_rehash (h : m.Shaped) : m.rehash.table = m.table.grow hashIndex := by
  obtain ⟨⟨e, he⟩, -⟩ := h
  have hcap : m.capacity * 2 = 2 ^ (e + 1) := by rw [he, pow_succ]
  exact (List.foldl_hom (slotTable (m.capacity * 2)) fun newSlots i =>
    (rehashStep_eq hcap m newSlots i).symm).symm

theorem Shaped.rehash (h : m.Shaped) : m.rehash.Shaped := by
  obtain ⟨⟨e, he⟩, -⟩ := h
  exact ⟨⟨e + 1, by rw [FlatOrderMap.rehash, he, pow_succ]⟩, rfl⟩

end FlatOrderMap

end NanoRing
