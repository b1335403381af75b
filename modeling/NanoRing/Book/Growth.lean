import NanoRing.Book.TableInvariant

/-!
# Growth of the order map

A table in which no reference has two slots is a finite map, and `rehash` re-places its
entries under a different mask, in slot order. What holds of the half-moved table is proved
for tables in general, so here it only has to be read off the slots.
-/

namespace NanoRing

namespace FlatOrderMap

open ProbeLoop ProbeTable

/-- The structural invariant, with no reference in two slots. -/
structure KeyedSlots (m : FlatOrderMap) : Prop where
  slotsSound : m.SlotsSound
  oneSlotPerRef : m.OneSlotPerRef

/-- Every inner loop of `rehash` ends, after at most as many steps as the old table has slots;
the table it leaves is twice as large, has no tombstone and keeps the invariant; and every
lookup gives the record that it gave before. -/
structure GrowsInvisibly (m : FlatOrderMap) : Prop where
  ends : ∀ n < m.capacity, (m.slots n).occupied = true → ∃ idx,
    rehashSlot (m.halfMoved n) m.capacity (m.capacity * 2 - 1) (m.slots n).orderRef = some idx ∧
      m.halfMoved (n + 1) = Function.update (m.halfMoved n) idx (m.slots n)
  capacity : m.rehash.capacity = m.capacity * 2
  keyed : m.rehash.KeyedSlots
  clean : ∀ i < m.rehash.capacity, (m.rehash.slots i).occupied = false →
    NeverUsed (m.rehash.slots i)
  size : m.rehash.size = m.size
  lookup : ∀ k, m.rehash.lookup k = m.lookup k

variable {m : FlatOrderMap}

/-- Every slot of the grown table is occupied or was never used. -/
theorem Shaped.neverUsed_rehash (h : m.Shaped) {i : ℕ}
    (hfree : (m.rehash.slots i).occupied = false) : NeverUsed (m.rehash.slots i) := by
  obtain ⟨hmoving, -⟩ := Table.grow_spec hashIndex m.table
  have hclean := hmoving.clean i
  rw [← h.table_rehash, table_cell] at hclean
  rw [← cellOf_eq_never_iff]
  cases hcell : cellOf (m.rehash.slots i) with
  | never => rfl
  | deleted => exact absurd hcell hclean
  | full key value =>
    rw [← isFull_cellOf, hcell] at hfree
    contradiction

/-- Growing keeps the structural invariant. -/
theorem SlotsSound.rehash (h : m.SlotsSound) : m.rehash.SlotsSound := by
  obtain ⟨hshaped, hsize, hload, -⟩ := (slotsSound_iff m).mp h
  obtain ⟨hmoving, -, hcount, -, -⟩ := Table.grow_spec hashIndex m.table
  rw [slotsSound_iff, hshaped.table_rehash]
  refine ⟨hshaped.rehash, hsize.trans hcount.symm, ?_, hmoving.probed⟩
  change m.size * 4 ≤ m.capacity * 2 * 3
  omega

/-- Growing gives no reference a second slot. -/
theorem KeyedSlots.rehash (h : m.KeyedSlots) : m.rehash.KeyedSlots := by
  obtain ⟨hshaped, -⟩ := (slotsSound_iff m).mp h.slotsSound
  obtain ⟨-, -, -, -, hkeeps⟩ := Table.grow_spec hashIndex m.table
  refine ⟨h.slotsSound.rehash, ?_⟩
  rw [oneSlotPerRef_iff, hshaped.table_rehash]
  exact hkeeps ((oneSlotPerRef_iff m).mp h.oneSlotPerRef)

/-- Growing changes no lookup. -/
theorem KeyedSlots.lookup_rehash (h : m.KeyedSlots) (k : UInt64) :
    m.rehash.lookup k = m.lookup k := by
  obtain ⟨hshaped, -, -, hprobed⟩ := (slotsSound_iff m).mp h.slotsSound
  rw [hshaped.rehash.lookup_eq, hshaped.lookup_eq, hshaped.table_rehash]
  exact Table.lookup_grow hprobed ((oneSlotPerRef_iff m).mp h.oneSlotPerRef) k

/-- Growth is invisible on every table that satisfies the invariant, of whatever capacity. -/
theorem rehash_growsInvisibly (h : m.KeyedSlots) : m.GrowsInvisibly := by
  obtain ⟨hshaped, -⟩ := (slotsSound_iff m).mp h.slotsSound
  exact {
    ends := fun _ hn hocc => hshaped.rehash_ends hn hocc
    capacity := rfl
    keyed := h.rehash
    clean := fun _ _ hfree => hshaped.neverUsed_rehash hfree
    size := rfl
    lookup := h.lookup_rehash }

/-- Four slots, with an entry whose probe path wraps around and a tombstone. -/
def wrapped : FlatOrderMap where
  slots := fun i =>
    if i = 3 then stored 6 { price := 10 }
    else if i = 0 then stored 2 { price := 20 }
    else if i = 1 then { orderRef := TOMBSTONE }
    else {}
  capacity := 4
  mask := 3
  size := 2

/-- The keys `6` and `2` share their home slot in the old table, and not in the grown one. -/
theorem wrapped_growsInvisibly : wrapped.GrowsInvisibly := by
  refine rehash_growsInvisibly ⟨⟨⟨2, rfl⟩, rfl, ?_, ?_, ?_⟩, ?_⟩
  · decide +kernel
  · decide
  · unfold NeverUsed
    decide +kernel
  · unfold OneSlotPerRef
    decide +kernel

end FlatOrderMap

end NanoRing
