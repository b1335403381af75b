import NanoRing.Book.OrderHistory

/-!
# The structural invariant of the order map in its own terms

What every sequence of calls, of whatever references, leaves true of the slots, masks and
sizes, and what follows for the loops of the map: a lookup is complete, the loops without
a bound end, and the size is never decremented below zero. A reference may be in two
slots, so none of this says which record a lookup returns.
-/

namespace NanoRing

namespace FlatOrderMap

open ProbeLoop ProbeTable

/-- A call on the map, lookups included. -/
inductive MapCall
  | insert (orderRef : UInt64) (order : LiveOrder)
  | find (orderRef : UInt64)
  | erase (orderRef : UInt64)

/-- The map after a call; a lookup leaves it as it is. -/
def applyCall (m : FlatOrderMap) : MapCall → FlatOrderMap
  | .insert orderRef order => m.insert orderRef order
  | .find _ => m
  | .erase orderRef => m.erase orderRef

/-- The map after a sequence of calls on a fresh one. -/
def afterCalls (calls : List MapCall) : FlatOrderMap := calls.foldl applyCall empty

/-- A slot that was never used. -/
def NeverUsed (slot : LiveOrder) : Prop := slot.occupied = false ∧ slot.orderRef = EMPTY

/-- The new array of `rehash` after its first `n` iterations. -/
def halfMoved (m : FlatOrderMap) (n : ℕ) : ℕ → LiveOrder :=
  (List.range n).foldl (m.rehashStep (m.capacity * 2) (m.capacity * 2 - 1)) fun _ => {}

/-- The slots, the mask and the sizes fit together. -/
structure SlotsSound (m : FlatOrderMap) : Prop where
  capacity : ∃ e, m.capacity = 2 ^ e
  mask : m.mask = m.capacity - 1
  size : m.size = ((Finset.range m.capacity).filter fun i => (m.slots i).occupied).card
  load : m.size * 4 ≤ m.capacity * 3
  path : ∀ i < m.capacity, (m.slots i).occupied = true →
    ∃ d < m.capacity, (m.home (m.slots i).orderRef + d) &&& m.mask = i ∧
      ∀ e < d, ¬ NeverUsed (m.slots ((m.home (m.slots i).orderRef + e) &&& m.mask))

/-- The loops of the map end where they should: a lookup finds exactly the stored references;
the loop of `insert` ends within as many steps as there are slots, and so does every inner
loop of `rehash`, the capacity being the old one; and `erase` decrements a positive size. -/
structure LoopsSound (m : FlatOrderMap) : Prop where
  find : ∀ k, m.find k ≠ none ↔
    ∃ i < m.capacity, (m.slots i).occupied = true ∧ (m.slots i).orderRef = k
  insert_ends : ∀ k o,
    probe (m.grown.insertVisit k o) m.grown.next m.grown.capacity (m.grown.home k) =
      some (m.insert k o)
  rehash_ends : ∀ n < m.capacity, (m.slots n).occupied = true → ∃ idx,
    rehashSlot (m.halfMoved n) m.capacity (m.capacity * 2 - 1) (m.slots n).orderRef = some idx ∧
      m.halfMoved (n + 1) = Function.update (m.halfMoved n) idx (m.slots n)
  erase_size : ∀ k, (m.find k = none → m.erase k = m) ∧
    (m.find k ≠ none → (m.erase k).size + 1 = m.size)

variable {m : FlatOrderMap}

/-- A cell is unused exactly when its slot is. -/
theorem cellOf_eq_never_iff (slot : LiveOrder) : cellOf slot = .never ↔ NeverUsed slot := by
  unfold cellOf NeverUsed
  cases slot.occupied <;> by_cases h : slot.orderRef = EMPTY <;> simp [h]

/-- The invariant on the slots is the one on the table. -/
theorem slotsSound_iff (m : FlatOrderMap) :
    m.SlotsSound ↔ m.Shaped ∧ m.size = m.table.count ∧ m.size * 4 ≤ m.capacity * 3 ∧
      m.table.Probed hashIndex := by
  have hsize : m.table.count =
      ((Finset.range m.capacity).filter fun i => (m.slots i).occupied).card := by
    simp only [Table.count, table_capacity, table_cell, isFull_cellOf]
  rw [hsize]
  constructor
  · intro h
    have hshaped : m.Shaped := ⟨h.capacity, h.mask⟩
    refine ⟨hshaped, h.size, h.load, fun i hi k o hcell => ?_⟩
    obtain ⟨hocc, rfl, rfl⟩ := cellOf_eq_full_iff.mp hcell
    obtain ⟨d, hd, hdi, hpath⟩ := h.path i hi hocc
    simp only [hshaped.and_mask, hshaped.home_eq, Nat.mod_add_mod] at hdi hpath
    exact ⟨d, hd, hdi, fun e he hnever => hpath e he ((cellOf_eq_never_iff _).mp hnever)⟩
  · rintro ⟨hshaped, hcount, hload, hprobed⟩
    refine ⟨hshaped.1, hshaped.2, hcount, hload, fun i hi hocc => ?_⟩
    obtain ⟨d, hd, hdi, hpath⟩ := hprobed i hi _ _ (cellOf_eq_full_iff.mpr ⟨hocc, rfl, rfl⟩)
    simp only [hshaped.and_mask, hshaped.home_eq, Nat.mod_add_mod]
    exact ⟨d, hd, hdi, fun e he hnever => hpath e he ((cellOf_eq_never_iff _).mpr hnever)⟩

/-- The invariant on the table gives the one on the slots. -/
theorem WellFormed.slotsSound (h : m.WellFormed) : m.SlotsSound :=
  (slotsSound_iff m).mpr ⟨h.shaped, h.size_eq, h.load, h.probed⟩

/-- A reference is stored in the table exactly when an occupied slot carries it. -/
theorem exists_holds_iff (m : FlatOrderMap) (k : UInt64) :
    (∃ o, m.table.Holds k o) ↔
      ∃ i < m.capacity, (m.slots i).occupied = true ∧ (m.slots i).orderRef = k := by
  constructor
  · rintro ⟨o, i, hi, hcell⟩
    obtain ⟨hocc, href, -⟩ := cellOf_eq_full_iff.mp hcell
    exact ⟨i, hi, hocc, href⟩
  · rintro ⟨i, hi, hocc, href⟩
    exact ⟨m.slots i, i, hi, cellOf_eq_full_iff.mpr ⟨hocc, href, rfl⟩⟩

/-- A lookup answers with a pointer exactly when some occupied slot carries its reference. -/
theorem WellFormed.find_ne_none_iff (h : m.WellFormed) (k : UInt64) :
    m.find k ≠ none ↔
      ∃ i < m.capacity, (m.slots i).occupied = true ∧ (m.slots i).orderRef = k := by
  rw [← exists_holds_iff, ← h.lookup_ne_none_iff, lookup, ne_eq, ne_eq, Option.map_eq_none_iff]

/-- The new array of `rehash` represents the half-moved table. -/
theorem Shaped.slotTable_halfMoved (h : m.Shaped) (n : ℕ) :
    slotTable (m.capacity * 2) (m.halfMoved n) = m.table.moved hashIndex n := by
  obtain ⟨⟨e, he⟩, -⟩ := h
  have hcap : m.capacity * 2 = 2 ^ (e + 1) := by rw [he, pow_succ]
  exact (List.foldl_hom (slotTable (m.capacity * 2)) fun newSlots i =>
    (rehashStep_eq hcap m newSlots i).symm).symm

/-- The inner loop of `rehash` passes at most the entries that were moved before. -/
theorem Shaped.rehash_ends (h : m.Shaped) {n : ℕ} (hn : n < m.capacity)
    (hocc : (m.slots n).occupied = true) :
    ∃ idx,
      rehashSlot (m.halfMoved n) m.capacity (m.capacity * 2 - 1) (m.slots n).orderRef = some idx ∧
        m.halfMoved (n + 1) = Function.update (m.halfMoved n) idx (m.slots n) := by
  obtain ⟨e, he⟩ := h.1
  have hcap : m.capacity * 2 = 2 ^ (e + 1) := by rw [he, pow_succ]
  have hmask (i : ℕ) : i &&& (m.capacity * 2 - 1) = i % (m.capacity * 2) := by
    rw [hcap, Nat.and_two_pow_sub_one_eq_mod]
  have hnext (i : ℕ) : (fun idx => (idx + 1) &&& (m.capacity * 2 - 1)) i =
      (i + 1) % (m.capacity * 2) := hmask (i + 1)
  have hmoved := Table.movedSpec hashIndex m.table (n := n) (Nat.le_of_lt hn)
  have hcount : (m.table.moved hashIndex n).count < m.capacity := by
    have hle := Finset.card_filter_le (Finset.range n) fun i => (m.table.cell i).isFull
    rw [Finset.card_range] at hle
    rw [hmoved.count]
    omega
  obtain ⟨d, hd, hfree⟩ := Table.exists_false_on_path (hashIndex (m.slots n).orderRef)
    (by rw [hmoved.capacity, table_capacity]; omega) (Table.count_eq_countBy _ ▸ hcount)
  rw [← h.slotTable_halfMoved] at hfree
  simp only [slotTable, isFull_cellOf, hashIndex] at hfree
  cases hslot : rehashSlot (m.halfMoved n) m.capacity (m.capacity * 2 - 1) (m.slots n).orderRef with
  | none =>
    rw [rehashSlot, hmask, probe_eq_none_iff hnext] at hslot
    have hpass := hslot d hd
    simp only [hfree, Bool.false_eq_true, if_false, reduceCtorEq] at hpass
  | some idx =>
    refine ⟨idx, rfl, ?_⟩
    have hfull : rehashSlot (m.halfMoved n) (m.capacity * 2) (m.capacity * 2 - 1)
        (m.slots n).orderRef = some idx := by
      rw [rehashSlot, hmask] at hslot ⊢
      exact probe_mono hnext (by omega) hslot
    rw [halfMoved, List.range_succ, List.foldl_concat, ← halfMoved, rehashStep, if_pos hocc, hfull]

/-- The invariant makes the loops of the map end where they should. -/
theorem WellFormed.loopsSound (h : m.WellFormed) : m.LoopsSound := by
  refine ⟨h.find_ne_none_iff, fun k o => ?_, fun n hn hocc => h.shaped.rehash_ends hn hocc, fun k => ?_⟩
  · obtain ⟨i, hslot, heq⟩ := h.insert_eq k o
    rw [h.grown.shaped.insert_loop_eq, hslot, heq, Option.map_some]
  · cases hfind : m.find k with
    | none =>
      exact ⟨fun _ => h.shaped.erase_of_absent hfind, fun hne => absurd rfl hne⟩
    | some i =>
      refine ⟨fun hnone => absurd hnone (Option.some_ne_none i), fun _ => ?_⟩
      have hcount := h.count_eraseAt hfind
      rw [h.shaped.erase_of_find hfind]
      change m.size - 1 + 1 = m.size
      omega

/-- Every sequence of calls keeps the map well formed. -/
theorem afterCalls_wellFormed (calls : List MapCall) : (afterCalls calls).WellFormed := by
  induction calls using List.reverseRecOn with
  | nil => exact empty_wellFormed
  | append_singleton calls call ih =>
    rw [afterCalls, List.foldl_concat, ← afterCalls]
    cases call with
    | insert k o => exact ih.insert k o
    | find k => exact ih
    | erase k => exact ih.erase k

/-- The structural invariant and its consequences hold after every sequence of calls. -/
theorem afterCalls_sound (calls : List MapCall) :
    (afterCalls calls).SlotsSound ∧ (afterCalls calls).LoopsSound :=
  have h := afterCalls_wellFormed calls
  ⟨h.slotsSound, h.loopsSound⟩

end FlatOrderMap

end NanoRing
