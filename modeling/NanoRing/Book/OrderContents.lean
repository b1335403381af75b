import NanoRing.Book.OrderTable

/-!
# The contents of the flat order map

`WellFormed` holds in every reachable state, for any keys whatever: it bounds the load, so
the loops of `insert` and `rehash` end, and it keeps every entry on its probe path.
`Represents` adds that no reference has two slots, and names the finite map that the
slots then stand for. Under it every operation of the map acts on the contents as its name
says; the one obligation is that an insertion does not reuse a freed slot ahead of the
slot that already holds its reference.
-/

namespace NanoRing

namespace FlatOrderMap

open ProbeLoop ProbeTable

variable {m : FlatOrderMap} {k : UInt64} {o : LiveOrder}

/-- The structural invariant of the map, for arbitrary histories. -/
structure WellFormed (m : FlatOrderMap) : Prop where
  shaped : m.Shaped
  capacity_pos : 0 < m.capacity
  four_dvd : 4 ∣ m.capacity
  size_eq : m.size = m.table.count
  load : m.size * 4 ≤ m.capacity * 3
  probed : m.table.Probed hashIndex

/-- A freed slot lies on the probe path of a reference ahead of the slot that holds it. -/
def FreedSlotAhead (m : FlatOrderMap) (k : UInt64) : Prop :=
  ∃ d e, d < e ∧ e < m.capacity ∧
    (m.slots ((m.home k + d) &&& m.mask)).occupied = false ∧
    (m.slots ((m.home k + e) &&& m.mask)).occupied = true ∧
    (m.slots ((m.home k + e) &&& m.mask)).orderRef = k

/-- An insertion finds the slot that its reference already has, if it has one: either the
map grows first, which leaves no freed slot, or no freed slot is in the way. -/
def InsertInPlace (m : FlatOrderMap) (k : UInt64) : Prop :=
  m.size * 4 < m.capacity * 3 → ¬ m.FreedSlotAhead k

/-- The contents of a map whose references have one slot each. -/
structure Represents (m : FlatOrderMap) (contents : UInt64 → Option LiveOrder) : Prop where
  wellFormed : m.WellFormed
  distinct : m.table.Distinct
  holds : ∀ k o, m.table.Holds k o ↔ contents k = some o

/-! ## The fresh map -/

/-- The fresh map is well formed. -/
theorem empty_wellFormed : empty.WellFormed where
  shaped := ⟨⟨20, rfl⟩, rfl⟩
  capacity_pos := by decide
  four_dvd := by decide
  size_eq := (Table.count_of_never defaultCapacity).symm
  load := by decide
  probed := fun _ _ _ _ hcell => by cases hcell

/-- The fresh map has no contents. -/
theorem empty_represents : empty.Represents fun _ => none where
  wellFormed := empty_wellFormed
  distinct := fun _ _ _ _ _ _ _ hcell => by cases hcell
  holds := fun k o => by
    constructor
    · rintro ⟨i, -, hcell⟩
      cases hcell
    · intro h
      cases h

/-! ## Growth -/

/-- After the growth test the load is strictly below three quarters. -/
theorem WellFormed.grown_load (h : m.WellFormed) : m.grown.size * 4 < m.grown.capacity * 3 := by
  unfold grown
  split
  · have hload := h.load
    have hpos := h.capacity_pos
    change m.size * 4 < m.capacity * 2 * 3
    omega
  · omega

/-- Rehashing keeps the map well formed. -/
theorem WellFormed.rehash (h : m.WellFormed) : m.rehash.WellFormed := by
  obtain ⟨hmoving, -, hcount, -, -⟩ := Table.grow_spec hashIndex m.table
  have hload := h.load
  have hpos := h.capacity_pos
  refine ⟨h.shaped.rehash, ?_, ?_, ?_, ?_, ?_⟩
  · change 0 < m.capacity * 2
    omega
  · exact Dvd.dvd.mul_right h.four_dvd 2
  · rw [h.shaped.table_rehash, hcount, ← h.size_eq]
    rfl
  · change m.size * 4 ≤ m.capacity * 2 * 3
    omega
  · rw [h.shaped.table_rehash]
    exact hmoving.probed

theorem WellFormed.grown (h : m.WellFormed) : m.grown.WellFormed := by
  unfold FlatOrderMap.grown
  split
  · exact h.rehash
  · exact h

/-- The growth test changes no entry. -/
theorem WellFormed.holds_grown (h : m.WellFormed) (k : UInt64) (o : LiveOrder) :
    m.grown.table.Holds k o ↔ m.table.Holds k o := by
  unfold FlatOrderMap.grown
  split
  · rw [h.shaped.table_rehash]
    exact (Table.grow_spec hashIndex m.table).2.2.2.1 k o
  · rfl

/-- The growth test keeps the references distinct. -/
theorem WellFormed.distinct_grown (h : m.WellFormed) (hdistinct : m.table.Distinct) :
    m.grown.table.Distinct := by
  unfold FlatOrderMap.grown
  split
  · rw [h.shaped.table_rehash]
    exact (Table.grow_spec hashIndex m.table).2.2.2.2 hdistinct
  · exact hdistinct

/-- A map with free slots has one that an insertion can use. -/
theorem WellFormed.exists_free (h : m.WellFormed) :
    ∃ j < m.grown.table.capacity, (m.grown.table.cell j).isFull = false := by
  have hload := h.grown_load
  have hsize := h.grown.size_eq
  exact Table.exists_free_of_count_lt (by rw [← hsize, table_capacity]; omega)

/-- On a shaped map a freed slot ahead is a shadowed key of the table. -/
theorem Shaped.freedSlotAhead_iff (h : m.Shaped) (k : UInt64) :
    m.FreedSlotAhead k ↔ m.table.Shadowed hashIndex k := by
  simp only [FreedSlotAhead, Table.Shadowed, table_capacity, table_cell, isFull_cellOf,
    h.and_mask, h.home_eq, Nat.mod_add_mod, cellOf_eq_full_iff]
  constructor
  · rintro ⟨d, e, hde, he, hfree, hocc, href⟩
    exact ⟨d, e, hde, he, hfree, _, hocc, href, rfl⟩
  · rintro ⟨d, e, hde, he, hfree, v, hocc, href, -⟩
    exact ⟨d, e, hde, he, hfree, hocc, href⟩

/-- An insertion is in place exactly when the table it works on does not shadow its key. -/
theorem WellFormed.insertInPlace_iff (h : m.WellFormed) (k : UInt64) :
    m.InsertInPlace k ↔ ¬ m.grown.table.Shadowed hashIndex k := by
  unfold InsertInPlace FlatOrderMap.grown
  split
  · rename_i hgrow
    obtain ⟨hmoving, -⟩ := Table.grow_spec hashIndex m.table
    refine ⟨fun _ => ?_, fun _ hlt => by omega⟩
    rw [h.shaped.table_rehash]
    exact Table.not_shadowed_of_clean hmoving.probed hmoving.clean
  · rename_i hgrow
    rw [h.shaped.freedSlotAhead_iff]
    exact ⟨fun hin => hin (by omega), fun hin _ => hin⟩

/-! ## Insertion -/

/-- The insertion loop ends, within one visit of every slot, with a written slot. -/
theorem WellFormed.insert_eq (h : m.WellFormed) (k : UInt64) (o : LiveOrder) :
    ∃ i, m.grown.table.insertionSlot hashIndex k = some i ∧ m.insert k o = m.grown.insertAt k o i := by
  obtain ⟨i, hslot⟩ := Table.insertionSlot_isSome hashIndex k h.exists_free
  refine ⟨i, hslot, ?_⟩
  simp only [insert, h.grown.shaped.insert_loop_eq, hslot, Option.map_some, Option.getD_some]

/-- Inserting into the map inserts into the table, after the growth test. -/
theorem WellFormed.table_insert (h : m.WellFormed) (k : UInt64) (o : LiveOrder) :
    (m.insert k o).table = m.grown.table.insert hashIndex k (stored k o) := by
  obtain ⟨i, hslot, heq⟩ := h.insert_eq k o
  rw [heq, table_insertAt, Table.insert, hslot]

/-- Insertion keeps the map well formed. -/
theorem WellFormed.insert (h : m.WellFormed) (k : UInt64) (o : LiveOrder) :
    (m.insert k o).WellFormed := by
  obtain ⟨i, hslot, heq⟩ := h.insert_eq k o
  obtain ⟨d, hd, rfl, -⟩ := Table.insertionSlot_eq_some_iff.mp hslot
  have hg := h.grown
  have hload := h.grown_load
  have hdvd := hg.four_dvd
  have hi : (hashIndex k + d) % m.grown.capacity < m.grown.capacity :=
    Nat.mod_lt _ hg.capacity_pos
  have hprobed := hg.probed.insert (k := k) (v := stored k o)
  rw [← h.table_insert, heq] at hprobed
  rw [heq]
  refine ⟨hg.shaped, hg.capacity_pos, hdvd, ?_, ?_, hprobed⟩
  · rw [table_insertAt]
    cases hocc : (m.grown.slots ((hashIndex k + d) % m.grown.capacity)).occupied with
    | false =>
      rw [Table.count_set_full hi (by simpa using hocc), ← hg.size_eq]
      simp [insertAt, hocc]
    | true =>
      rw [Table.count_set_full_of_full (by simpa using hocc), ← hg.size_eq]
      simp [insertAt, hocc]
  · simp only [insertAt]
    split <;> omega

/-- Insertion keeps the references distinct exactly when it is in place. -/
theorem Represents.distinct_insert_iff {contents : UInt64 → Option LiveOrder}
    (h : m.Represents contents) (k : UInt64) (o : LiveOrder) :
    (m.insert k o).table.Distinct ↔ m.InsertInPlace k := by
  rw [h.wellFormed.table_insert, h.wellFormed.insertInPlace_iff]
  exact Table.distinct_insert_iff (h.wellFormed.distinct_grown h.distinct) h.wellFormed.exists_free

/-- An insertion in place updates the contents at its reference. -/
theorem Represents.insert {contents : UInt64 → Option LiveOrder} (h : m.Represents contents)
    (hplace : m.InsertInPlace k) :
    (m.insert k o).Represents (Function.update contents k (some (stored k o))) := by
  have hw := h.wellFormed
  refine ⟨hw.insert k o, (h.distinct_insert_iff k o).mpr hplace, fun key value => ?_⟩
  rw [hw.table_insert, Table.holds_insert (hw.distinct_grown h.distinct) hw.exists_free
    ((hw.insertInPlace_iff k).mp hplace), hw.holds_grown, h.holds]
  by_cases hkey : key = k
  · subst hkey
    simp [eq_comm]
  · simp [hkey]

/-- A reference that is not live is always inserted in place. -/
theorem Represents.insertInPlace_of_absent {contents : UInt64 → Option LiveOrder}
    (h : m.Represents contents) (habsent : contents k = none) : m.InsertInPlace k := by
  rw [h.wellFormed.insertInPlace_iff]
  refine Table.not_shadowed_of_absent fun o ho => ?_
  rw [h.wellFormed.holds_grown, h.holds, habsent] at ho
  contradiction

/-! ## Erasure, lookup and writes through the pointer -/

/-- The size that an erasure decrements is positive. -/
theorem WellFormed.count_eraseAt (h : m.WellFormed) {i : ℕ} (hfind : m.find k = some i) :
    (m.eraseAt i).table.count + 1 = m.size := by
  obtain ⟨hi, hcell⟩ := h.shaped.cell_of_find hfind
  rw [table_eraseAt, h.size_eq]
  exact Table.count_set_deleted hi (by rw [hcell]; rfl)

/-- Erasing an entry keeps the map well formed. -/
theorem WellFormed.erase (h : m.WellFormed) (k : UInt64) : (m.erase k).WellFormed := by
  cases hfind : m.find k with
  | none =>
    rw [h.shaped.erase_of_absent hfind]
    exact h
  | some i =>
    have hcount := h.count_eraseAt hfind
    have hload := h.load
    have hprobed : (m.erase k).table.Probed hashIndex := by
      rw [h.shaped.table_erase]
      exact h.probed.erase
    rw [h.shaped.erase_of_find hfind] at hprobed ⊢
    refine ⟨h.shaped, h.capacity_pos, h.four_dvd, ?_, ?_, hprobed⟩
    · change m.size - 1 = (m.eraseAt i).table.count
      omega
    · change (m.size - 1) * 4 ≤ m.capacity * 3
      omega

/-- Erasing a reference removes it from the contents. -/
theorem Represents.erase {contents : UInt64 → Option LiveOrder} (h : m.Represents contents)
    (k : UInt64) : (m.erase k).Represents (Function.update contents k none) := by
  have hw := h.wellFormed
  refine ⟨hw.erase k, ?_, fun key value => ?_⟩
  · rw [hw.shaped.table_erase]
    exact h.distinct.erase
  · rw [hw.shaped.table_erase, Table.holds_erase hw.probed h.distinct, h.holds]
    by_cases hkey : key = k <;> simp [hkey]

/-- A lookup answers with the contents. -/
theorem Represents.lookup_eq {contents : UInt64 → Option LiveOrder} (h : m.Represents contents)
    (k : UInt64) : m.lookup k = contents k := by
  rw [h.wellFormed.shaped.lookup_eq]
  ext o
  rw [Table.lookup_eq_some_iff h.wellFormed.probed h.distinct, h.holds]

/-- A slot that `find` returns holds the entry of its reference. -/
theorem Represents.find_spec {contents : UInt64 → Option LiveOrder} (h : m.Represents contents)
    {i : ℕ} (hfind : m.find k = some i) :
    contents k = some (m.slots i) ∧ (m.slots i).occupied = true ∧ (m.slots i).orderRef = k := by
  obtain ⟨hi, hcell⟩ := h.wellFormed.shaped.cell_of_find hfind
  obtain ⟨hocc, href, -⟩ := cellOf_eq_full_iff.mp hcell
  exact ⟨(h.holds k _).mp ⟨i, hi, hcell⟩, hocc, href⟩

/-- A write through the pointer of `find` replaces the entry in its cell. -/
theorem Shaped.table_setRemaining (h : m.Shaped) {i : ℕ} (hfind : m.find k = some i)
    (remaining : UInt32) :
    i < m.capacity ∧ m.table.cell i = .full k (m.slots i) ∧
      (m.setRemaining i remaining).table =
        m.table.set i (.full k { m.slots i with remainingShares := remaining }) := by
  obtain ⟨hi, hcell⟩ := h.cell_of_find hfind
  obtain ⟨hocc, href, -⟩ := cellOf_eq_full_iff.mp hcell
  refine ⟨hi, hcell, (m.table_update i _ _).trans (congrArg _ ?_)⟩
  exact cellOf_eq_full_iff.mpr ⟨hocc, href, rfl⟩

/-- A write through the pointer of `find` keeps the map well formed. -/
theorem WellFormed.setRemaining (h : m.WellFormed) {i : ℕ} (hfind : m.find k = some i)
    (remaining : UInt32) : (m.setRemaining i remaining).WellFormed := by
  obtain ⟨hi, hcell, htable⟩ := h.shaped.table_setRemaining hfind remaining
  refine ⟨h.shaped, h.capacity_pos, h.four_dvd, ?_, h.load, ?_⟩
  · rw [htable, Table.count_set_full_of_full (by rw [hcell]; rfl)]
    exact h.size_eq
  · rw [htable]
    exact h.probed.set_value hi hcell

/-- Writing the remaining shares through the pointer of `find` updates the contents. -/
theorem Represents.setRemaining {contents : UInt64 → Option LiveOrder} (h : m.Represents contents)
    {i : ℕ} (hfind : m.find k = some i) (remaining : UInt32) :
    (m.setRemaining i remaining).Represents
      (Function.update contents k (some { m.slots i with remainingShares := remaining })) := by
  have hw := h.wellFormed
  obtain ⟨hi, hcell, htable⟩ := hw.shaped.table_setRemaining hfind remaining
  refine ⟨hw.setRemaining hfind remaining, ?_, fun key value => ?_⟩
  · rw [htable]
    exact h.distinct.set_value hi hcell
  · rw [htable, Table.holds_set_value h.distinct hi hcell, h.holds]
    by_cases hkey : key = k
    · subst hkey
      simp [eq_comm]
    · simp [hkey]

/-! ## References that are found

These facts need no distinct references, so they hold in every reachable state. -/

/-- A reference is found exactly when some cell stores it. -/
theorem WellFormed.lookup_ne_none_iff (h : m.WellFormed) (k : UInt64) :
    m.lookup k ≠ none ↔ ∃ o, m.table.Holds k o := by
  rw [h.shaped.lookup_eq, ne_eq, Table.lookup_eq_none_iff h.probed]
  simp only [not_forall, not_not]

/-- An inserted reference is found. -/
theorem WellFormed.lookup_insert_ne_none (h : m.WellFormed) (k : UInt64) (o : LiveOrder) :
    (m.insert k o).lookup k ≠ none := by
  obtain ⟨i, hslot, heq⟩ := h.insert_eq k o
  obtain ⟨d, -, rfl, -⟩ := Table.insertionSlot_eq_some_iff.mp hslot
  have hi := Nat.mod_lt (hashIndex k + d) h.grown.capacity_pos
  rw [(h.insert k o).lookup_ne_none_iff, heq, table_insertAt]
  exact ⟨_, (Table.holds_set_full hi).mpr (Or.inl ⟨rfl, rfl⟩)⟩

/-- What is found after an insertion is the inserted reference or was found before. -/
theorem WellFormed.of_lookup_insert (h : m.WellFormed) {key : UInt64}
    (hfound : (m.insert k o).lookup key ≠ none) : key = k ∨ m.lookup key ≠ none := by
  obtain ⟨i, hslot, heq⟩ := h.insert_eq k o
  obtain ⟨d, -, rfl, -⟩ := Table.insertionSlot_eq_some_iff.mp hslot
  have hi := Nat.mod_lt (hashIndex k + d) h.grown.capacity_pos
  rw [(h.insert k o).lookup_ne_none_iff, heq, table_insertAt] at hfound
  obtain ⟨value, hvalue⟩ := hfound
  rcases (Table.holds_set_full hi).mp hvalue with ⟨rfl, -⟩ | ⟨j, hj, -, hcell⟩
  · exact Or.inl rfl
  · refine Or.inr ((h.lookup_ne_none_iff key).mpr ⟨value, ?_⟩)
    exact (h.holds_grown key value).mp ⟨j, hj, hcell⟩

/-- What is found after an erasure was found before. -/
theorem WellFormed.of_lookup_erase (h : m.WellFormed) {key : UInt64}
    (hfound : (m.erase k).lookup key ≠ none) : m.lookup key ≠ none := by
  rw [(h.erase k).lookup_ne_none_iff, h.shaped.table_erase] at hfound
  obtain ⟨value, hvalue⟩ := hfound
  exact (h.lookup_ne_none_iff key).mpr ⟨value, Table.of_holds_erase hvalue⟩

/-- What is found after a write through the pointer of `find` was found before. -/
theorem WellFormed.of_lookup_setRemaining (h : m.WellFormed) {i : ℕ} (hfind : m.find k = some i)
    {remaining : UInt32} {key : UInt64}
    (hfound : (m.setRemaining i remaining).lookup key ≠ none) : m.lookup key ≠ none := by
  obtain ⟨hi, hcell, htable⟩ := h.shaped.table_setRemaining hfind remaining
  rw [(h.setRemaining hfind remaining).lookup_ne_none_iff, htable] at hfound
  obtain ⟨value, hvalue⟩ := hfound
  rcases (Table.holds_set_full hi).mp hvalue with ⟨rfl, -⟩ | ⟨j, hj, -, hcell'⟩
  · exact (h.lookup_ne_none_iff key).mpr ⟨_, i, hi, hcell⟩
  · exact (h.lookup_ne_none_iff key).mpr ⟨value, j, hj, hcell'⟩

end FlatOrderMap

end NanoRing
