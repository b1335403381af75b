import NanoRing.Book.ShardedBookManager
import NanoRing.Common.ProbeGrow
import Mathlib.Data.Nat.Bitwise

/-!
# The symbol map as an open-addressing table

The symbol map is a table from ticker keys to book indices that never deletes. `Assigns`
says that it assigns the books in turn to a list of distinct keys; both loops then answer
with the position of a key in that list, and the insertion loop extends the list by a new key.
-/

namespace NanoRing

namespace ShardedBookManager

open ProbeLoop ProbeTable

variable {m : ShardedBookManager} {k : UInt64} {i : ℕ} {keys : List UInt64}

/-- The hash as the natural number that is reduced modulo the capacity. -/
def hashIndex (tickerKey : UInt64) : ℕ := (symbolHash tickerKey).toNat

/-- The table that the symbol map represents. -/
def table (m : ShardedBookManager) : Table UInt64 ℕ where
  capacity := symbolMapCapacity
  cell := fun i => if m.symbolVals i = EMPTY_VAL then .never else .full (m.symbolKeys i) (m.symbolVals i)

/-- Masking an index reduces it modulo the capacity. -/
theorem and_mask (i : ℕ) : i &&& (symbolMapCapacity - 1) = i % symbolMapCapacity :=
  Nat.and_two_pow_sub_one_eq_mod i 10

theorem next_eq (m : ShardedBookManager) (i : ℕ) : next i = m.table.next i := and_mask (i + 1)

theorem home_eq (k : UInt64) : home k = hashIndex k % symbolMapCapacity := and_mask _

theorem table_cell_ne_deleted (m : ShardedBookManager) (i : ℕ) : m.table.cell i ≠ .deleted := by
  unfold table
  dsimp only
  split <;> simp

/-- A cell has an entry exactly when its slot is in use. -/
theorem table_cell_eq_full_iff {v : ℕ} :
    m.table.cell i = .full k v ↔ v ≠ EMPTY_VAL ∧ m.symbolKeys i = k ∧ m.symbolVals i = v := by
  unfold table
  dsimp only
  split
  · rename_i hempty
    simp only [reduceCtorEq, false_iff, hempty]
    exact fun ⟨hne, _, hv⟩ => hne hv.symm
  · rename_i hne
    rw [Cell.full.injEq]
    exact ⟨fun ⟨hk, hv⟩ => ⟨hv ▸ hne, hk, hv⟩, fun ⟨_, hk, hv⟩ => ⟨hk, hv⟩⟩

/-- Writing a slot writes its cell. -/
theorem table_update (m : ShardedBookManager) (i : ℕ) (k : UInt64) {v : ℕ} (hv : v ≠ EMPTY_VAL)
    (count : ℕ) :
    table { m with
      symbolKeys := Function.update m.symbolKeys i k
      symbolVals := Function.update m.symbolVals i v
      bookCount := count } = m.table.set i (.full k v) := by
  simp only [table, Table.set, Table.mk.injEq, true_and]
  funext j
  by_cases hji : j = i
  · subst hji
    simp only [Function.update_self, hv, if_false]
  · simp only [Function.update_of_ne hji]

/-! ## The loops of the manager are the loops of the table -/

/-- What the insertion loop returns from slot `i`. -/
def settle (m : ShardedBookManager) (k : UInt64) (i : ℕ) : ShardedBookManager × ℕ :=
  if m.symbolVals i = EMPTY_VAL then
    if m.bookCount ≥ maxSymbolsPerShard then (m, FULL)
    else
      ({ m with
          symbolKeys := Function.update m.symbolKeys i k
          symbolVals := Function.update m.symbolVals i m.bookCount
          bookCount := m.bookCount + 1 }, m.bookCount)
  else (m, m.symbolVals i)

theorem findOrInsertVisit_eq (m : ShardedBookManager) (k : UInt64) (i : ℕ) :
    m.findOrInsertVisit k i = (m.table.insertVisit k i).map (m.settle k) := by
  simp only [findOrInsertVisit, Table.insertVisit, table, beq_iff_eq]
  by_cases hempty : m.symbolVals i = EMPTY_VAL
  · simp only [hempty, if_true, Option.map_some, settle, Function.update_self]
    split <;> rfl
  · by_cases hkey : m.symbolKeys i = k <;> simp [settle, hempty, hkey]

/-- The insertion loop settles the slot where the table's loop stops. -/
theorem findOrInsertSymbol_eq (m : ShardedBookManager) (k : UInt64) :
    m.findOrInsertSymbol k = ((m.table.insertionSlot hashIndex k).map (m.settle k)).getD (m, FULL) := by
  rw [findOrInsertSymbol, Table.insertionSlot, home_eq,
    probe_congr (m.findOrInsertVisit_eq k) m.next_eq, probe_map]
  rfl

theorem getBookVisit_eq (m : ShardedBookManager) (k : UInt64) (i : ℕ) :
    m.getBookVisit k i =
      (m.table.lookupVisit k i).map (Option.map fun j => m.books (m.symbolVals j)) := by
  simp only [getBookVisit, Table.lookupVisit, table, beq_iff_eq]
  by_cases hempty : m.symbolVals i = EMPTY_VAL
  · simp [hempty]
  · by_cases hkey : m.symbolKeys i = k <;> simp [hempty, hkey]

/-- `getBook` returns the book at the index that the table holds. -/
theorem getBook_eq (m : ShardedBookManager) (k : UInt64) :
    m.getBook k = (m.table.lookup hashIndex k).map m.books := by
  have hloop : m.getBook k = (m.table.locate hashIndex k).map fun j => m.books (m.symbolVals j) := by
    rw [getBook, Table.locate, home_eq, probe_congr (m.getBookVisit_eq k) m.next_eq, probe_map,
      Option.join_map_eq_map_join]
    rfl
  rw [hloop, Table.lookup]
  cases hloc : m.table.locate hashIndex k with
  | none => rfl
  | some j =>
    obtain ⟨-, v, hcell⟩ := Table.locate_spec hloc
    rw [Option.map_some, (table_cell_eq_full_iff.mp hcell).2.2, Option.bind_some, hcell]
    rfl

/-! ## Assigned books -/

/-- The map assigns the books in turn to the keys of a list. -/
structure Assigns (m : ShardedBookManager) (keys : List UInt64) : Prop where
  probed : m.table.Probed hashIndex
  distinct : m.table.Distinct
  holds : ∀ k v, m.table.Holds k v ↔ keys[v]? = some k
  bookCount_eq : m.bookCount = keys.length
  count_eq : m.table.count = keys.length
  bounded : keys.length ≤ maxSymbolsPerShard

theorem empty_cell (i : ℕ) : empty.table.cell i = .never := by
  simp only [table, empty, if_true]

/-- The fresh manager assigns no books. -/
theorem empty_assigns : empty.Assigns [] where
  probed := fun i _ k v hcell => by rw [empty_cell] at hcell; contradiction
  distinct := fun i _ j _ k v w hcell => by rw [empty_cell] at hcell; contradiction
  holds := fun k v => by
    simp only [Table.Holds, empty_cell, List.getElem?_nil, reduceCtorEq, and_false, exists_false]
  bookCount_eq := rfl
  count_eq := by simp only [Table.count, empty_cell, Cell.isFull_never, Bool.false_eq_true,
    Finset.filter_false, Finset.card_empty, List.length_nil]
  bounded := Nat.zero_le _

/-- `getBook` returns the book at the position of its key. -/
theorem Assigns.getBook_eq_some (h : m.Assigns keys) {v : ℕ} (hv : keys[v]? = some k) :
    m.getBook k = some (m.books v) := by
  rw [getBook_eq, (Table.lookup_eq_some_iff h.probed h.distinct).mpr ((h.holds k v).mpr hv)]
  rfl

/-- `getBook` returns null for a key without a book. -/
theorem Assigns.getBook_eq_none (h : m.Assigns keys) (hk : k ∉ keys) : m.getBook k = none := by
  rw [getBook_eq, (Table.lookup_eq_none_iff h.probed).mpr ?_]
  · rfl
  · intro v hv
    exact hk (List.mem_of_getElem? ((h.holds k v).mp hv))

/-- The positions of the keys of a list after a new key at its end. -/
theorem getElem?_concat_iff (hk : k ∉ keys) {key : UInt64} {v : ℕ} :
    (keys ++ [k])[v]? = some key ↔ if key = k then v = keys.length else keys[v]? = some key := by
  rcases Nat.lt_trichotomy v keys.length with hlt | heq | hgt
  · rw [List.getElem?_append_left hlt]
    split
    · rename_i hkey
      refine ⟨fun hsome => absurd (List.mem_of_getElem? (hkey ▸ hsome)) hk, fun hv => ?_⟩
      omega
    · rfl
  · subst heq
    simp [eq_comm]
  · rw [List.getElem?_eq_none (by simp; omega), List.getElem?_eq_none hgt.le]
    simp
    omega

/-- The outcomes of `findOrInsertSymbol` on a map that assigns the books to a list of keys. -/
inductive Found (m : ShardedBookManager) (keys : List UInt64) (k : UInt64) :
    ShardedBookManager × ℕ → Prop
  | known (v : ℕ) (hv : keys[v]? = some k) : Found m keys k (m, v)
  | added (m' : ShardedBookManager) (hk : k ∉ keys) (hroom : keys.length < maxSymbolsPerShard)
      (hassigns : m'.Assigns (keys ++ [k])) (hbooks : m'.books = m.books)
      (htotal : m'.totalMessages = m.totalMessages) : Found m keys k (m', keys.length)
  | refused (hk : k ∉ keys) (hfull : keys.length = maxSymbolsPerShard) : Found m keys k (m, FULL)

/-- The map is never full. -/
theorem Assigns.count_lt (h : m.Assigns keys) : m.table.count < m.table.capacity := by
  rw [h.count_eq]
  exact lt_of_le_of_lt h.bounded (by decide : maxSymbolsPerShard < symbolMapCapacity)

theorem Assigns.not_shadowed (h : m.Assigns keys) (k : UInt64) : ¬ m.table.Shadowed hashIndex k :=
  Table.not_shadowed_of_clean h.probed m.table_cell_ne_deleted

variable {i : ℕ}

/-- The insertion loop stops at the cell of a key that has a book. -/
theorem Assigns.settle_of_mem (h : m.Assigns keys)
    (hslot : m.table.insertionSlot hashIndex k = some i) {v : ℕ} (hv : keys[v]? = some k) :
    m.settle k i = (m, v) := by
  obtain ⟨j, hj, hcell⟩ := (h.holds k v).mpr hv
  have hji : j = i := by
    by_contra hne
    exact h.not_shadowed k
      ((Table.shadowed_iff_other_entry h.distinct hslot).mpr ⟨j, hj, hne, v, hcell⟩)
  rw [hji] at hcell
  obtain ⟨hne, -, hval⟩ := table_cell_eq_full_iff.mp hcell
  rw [settle, if_neg (hval ▸ hne), hval]

/-- The insertion loop stops at a free cell when the key has no book. -/
theorem Assigns.free_of_notMem (h : m.Assigns keys)
    (hslot : m.table.insertionSlot hashIndex k = some i) (hk : k ∉ keys) :
    i < m.table.capacity ∧ (m.table.cell i).isFull = false := by
  have hcount := h.count_lt
  obtain ⟨d, -, hdi, hstop, -⟩ := Table.insertionSlot_eq_some_iff.mp hslot
  have hi : i < m.table.capacity := hdi ▸ Nat.mod_lt _ (by omega)
  refine ⟨hi, ?_⟩
  rcases hstop with hfree | ⟨v, hv⟩
  · exact hfree
  · exact absurd (List.mem_of_getElem? ((h.holds k v).mp ⟨i, hi, hv⟩)) hk

theorem symbolVals_eq_of_free (hfree : (m.table.cell i).isFull = false) :
    m.symbolVals i = EMPTY_VAL := by
  by_contra hne
  rw [table_cell_eq_full_iff.mpr ⟨hne, rfl, rfl⟩] at hfree
  cases hfree

/-- A new key is given the next book. -/
theorem Assigns.append (h : m.Assigns keys) (hslot : m.table.insertionSlot hashIndex k = some i)
    (hk : k ∉ keys) (hlt : keys.length < maxSymbolsPerShard) :
    Assigns { m with
      symbolKeys := Function.update m.symbolKeys i k
      symbolVals := Function.update m.symbolVals i keys.length
      bookCount := keys.length + 1 } (keys ++ [k]) := by
  obtain ⟨hi, hfree⟩ := h.free_of_notMem hslot hk
  have hfreeSlot := Table.exists_free_of_count_lt h.count_lt
  have hclean := h.not_shadowed k
  have hne : keys.length ≠ EMPTY_VAL := (hlt.trans (by decide : maxSymbolsPerShard < EMPTY_VAL)).ne
  have hinsert : m.table.insert hashIndex k keys.length = m.table.set i (.full k keys.length) := by
    rw [Table.insert, hslot]
  refine ⟨?_, ?_, fun key v => ?_, ?_, ?_, ?_⟩
  · rw [table_update m i k hne, ← hinsert]
    exact h.probed.insert
  · rw [table_update m i k hne, ← hinsert]
    exact (Table.distinct_insert_iff h.distinct hfreeSlot).mpr hclean
  · rw [table_update m i k hne, ← hinsert, Table.holds_insert h.distinct hfreeSlot hclean,
      h.holds, getElem?_concat_iff hk]
  · rw [List.length_append, List.length_singleton]
  · rw [table_update m i k hne, Table.count_set_full hi hfree, h.count_eq, List.length_append,
      List.length_singleton]
  · rw [List.length_append, List.length_singleton]
    exact hlt

/-- `findOrInsertSymbol` finds the position of a key, or appends it while there is room. -/
theorem Assigns.findOrInsertSymbol_spec (h : m.Assigns keys) (k : UInt64) :
    Found m keys k (m.findOrInsertSymbol k) := by
  obtain ⟨i, hslot⟩ := Table.insertionSlot_isSome hashIndex k (Table.exists_free_of_count_lt h.count_lt)
  rw [findOrInsertSymbol_eq, hslot, Option.map_some, Option.getD_some]
  by_cases hk : k ∈ keys
  · obtain ⟨v, hv⟩ := List.mem_iff_getElem?.mp hk
    rw [h.settle_of_mem hslot hv]
    exact .known v hv
  · have hempty := symbolVals_eq_of_free (h.free_of_notMem hslot hk).2
    rw [settle, if_pos hempty, h.bookCount_eq]
    by_cases hfull : keys.length ≥ maxSymbolsPerShard
    · rw [if_pos hfull]
      exact .refused hk (Nat.le_antisymm h.bounded hfull)
    · rw [if_neg hfull]
      have hlt : keys.length < maxSymbolsPerShard := Nat.lt_of_not_le hfull
      exact .added _ hk hlt (h.append hslot hk hlt) rfl rfl

end ShardedBookManager

end NanoRing
