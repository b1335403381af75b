import NanoRing.Book.TableInvariant

/-!
# Used slots and the length of unsuccessful searches

An unsuccessful search ends at a slot that was never used, so its length is bounded by the
slots that were: the occupied ones and the tombstones. The growth test of `insert` looks at
the occupied slots alone. The bound of three quarters therefore survives exactly those
histories whose insertions take a never-used slot only while the test would allow it with
the tombstones counted too.
-/

namespace NanoRing

namespace FlatOrderMap

open ProbeLoop ProbeTable

instance (slot : LiveOrder) : Decidable (NeverUsed slot) := inferInstanceAs (Decidable (_ ∧ _))

/-- The number of slots that are occupied or tombstones. -/
def usedSlots (m : FlatOrderMap) : ℕ :=
  ((Finset.range m.capacity).filter fun i => ¬ NeverUsed (m.slots i)).card

/-- At least a quarter of the slots were never used, and a search that finds nothing returns
at such a slot, after passing at most three quarters of the slots. -/
structure BoundedProbes (m : FlatOrderMap) : Prop where
  used : m.usedSlots * 4 ≤ m.capacity * 3
  never_used : m.capacity ≤ ((Finset.range m.capacity).filter fun i => NeverUsed (m.slots i)).card * 4
  find_stops : ∀ k, m.find k = none →
    probe (m.findVisit k) m.next (m.capacity * 3 / 4 + 1) (m.home k) = some none
  erase_stops : ∀ k, m.find k = none →
    probe (m.eraseVisit k) m.next (m.capacity * 3 / 4 + 1) (m.home k) = some m

/-- The first slot on the probe path of a reference that is free or its own was never used. -/
def TakesNeverUsed (m : FlatOrderMap) (k : UInt64) : Prop :=
  ∃ d < m.capacity, NeverUsed (m.slots ((m.home k + d) &&& m.mask)) ∧
    ∀ e < d, (m.slots ((m.home k + e) &&& m.mask)).occupied = true ∧
      (m.slots ((m.home k + e) &&& m.mask)).orderRef ≠ k

/-- An insertion that neither grows the table nor reuses a slot leaves room for one more used
slot. -/
def InsertKeepsBound (m : FlatOrderMap) (k : UInt64) : Prop :=
  m.size * 4 < m.capacity * 3 → m.TakesNeverUsed k → (m.usedSlots + 1) * 4 ≤ m.capacity * 3

variable {m : FlatOrderMap} {k : UInt64} {o : LiveOrder}

/-! ## Used slots as used cells -/

theorem isNever_cellOf (slot : LiveOrder) : (cellOf slot).isNever = decide (NeverUsed slot) := by
  unfold cellOf NeverUsed
  by_cases hocc : slot.occupied = true <;> by_cases href : slot.orderRef = EMPTY <;>
    simp [hocc, href, Cell.isNever]

theorem usedSlots_eq (m : FlatOrderMap) : m.usedSlots = m.table.used := by
  simp only [usedSlots, Table.used, Table.countBy, table_capacity, table_cell, isNever_cellOf,
    ← decide_not, decide_eq_true_eq]

theorem usedSlots_empty : empty.usedSlots = 0 := by
  simp [usedSlots, empty, NeverUsed, EMPTY]

/-- The never-used slots are those that are not used. -/
theorem usedSlots_add_neverUsed (m : FlatOrderMap) :
    ((Finset.range m.capacity).filter fun i => NeverUsed (m.slots i)).card + m.usedSlots =
      m.capacity := by
  rw [usedSlots, Finset.card_filter_add_card_filter_not, Finset.card_range]

/-- An insertion takes a never-used slot exactly when its loop stops at one. -/
theorem Shaped.takesNeverUsed_iff (h : m.Shaped) (k : UInt64) :
    m.TakesNeverUsed k ↔
      ∃ i, m.table.insertionSlot hashIndex k = some i ∧ (m.table.cell i).isNever = true := by
  simp only [TakesNeverUsed, h.and_mask, h.home_eq, Nat.mod_add_mod, ← cellOf_eq_never_iff]
  constructor
  · rintro ⟨d, hd, hnever, hbefore⟩
    refine ⟨_, Table.insertionSlot_eq_some_iff.mpr
      ⟨d, hd, rfl, Or.inl (congrArg Cell.isFull hnever), fun e he => ?_⟩,
      congrArg Cell.isNever hnever⟩
    obtain ⟨hocc, hne⟩ := hbefore e he
    refine ⟨(isFull_cellOf _).trans hocc, fun v hcell => ?_⟩
    exact hne (cellOf_eq_full_iff.mp hcell).2.1
  · rintro ⟨i, hslot, hnever⟩
    obtain ⟨d, hd, rfl, -, hbefore⟩ := Table.insertionSlot_eq_some_iff.mp hslot
    refine ⟨d, hd, ?_, fun e he => ?_⟩
    · rw [table_cell, isNever_cellOf, decide_eq_true_eq] at hnever
      exact (cellOf_eq_never_iff _).mpr hnever
    · obtain ⟨hfull, hne⟩ := hbefore e he
      rw [table_cell, isFull_cellOf] at hfull
      exact ⟨hfull, fun href => hne _ (cellOf_eq_full_iff.mpr ⟨hfull, href, rfl⟩)⟩

/-! ## The bound -/

/-- The bound on the used slots bounds every unsuccessful search. -/
theorem WellFormed.boundedProbes_iff_used (h : m.WellFormed) :
    m.BoundedProbes ↔ m.usedSlots * 4 ≤ m.capacity * 3 := by
  refine ⟨fun hbounded => hbounded.used, fun hused => ?_⟩
  have hsplit := m.usedSlots_add_neverUsed
  have hpos := h.capacity_pos
  have hstops (k : UInt64) (hfind : m.find k = none) :
      probe (m.table.lookupVisit k) m.table.next (m.capacity * 3 / 4 + 1)
        (hashIndex k % m.capacity) = some none := by
    obtain ⟨d, hd, hnever⟩ := Table.exists_false_on_path (t := m.table) (hashIndex k)
      (p := fun c => !c.isNever) (n := m.capacity * 3 / 4 + 1)
      (by rw [table_capacity]; omega) (by change m.table.used < _; rw [← usedSlots_eq]; omega)
    rcases hprobe : probe (m.table.lookupVisit k) m.table.next (m.capacity * 3 / 4 + 1)
        (hashIndex k % m.capacity) with _ | _ | i
    · -- the walk cannot have passed a never-used slot
      have hpass := (probe_eq_none_iff m.table.next_eq _ _).mp hprobe d hd
      have hused := (Table.lookupVisit_eq_none_iff.mp hpass).1
      cases hcell : m.table.cell ((hashIndex k + d) % m.table.capacity) with
      | never => exact absurd hcell hused
      | deleted | full =>
        rw [hcell] at hnever
        contradiction
    · rfl
    · have hfound : probe (m.table.lookupVisit k) m.table.next m.capacity
          (hashIndex k % m.capacity) = some (some i) :=
        probe_mono m.table.next_eq (by omega) hprobe
      rw [h.shaped.find_eq, Table.locate, table_capacity, hfound] at hfind
      contradiction
  refine ⟨hused, by omega, fun k hfind => ?_, fun k hfind => ?_⟩
  · rw [h.shaped.home_eq, probe_congr (m.findVisit_eq k) h.shaped.next_eq]
    exact hstops k hfind
  · rw [h.shaped.home_eq, probe_congr (m.eraseVisit_eq k) h.shaped.next_eq, probe_map,
      hstops k hfind]
    rfl

/-- Erasing turns an occupied slot into a tombstone, which is as used. -/
theorem WellFormed.usedSlots_erase (h : m.WellFormed) (k : UInt64) :
    (m.erase k).usedSlots = m.usedSlots ∧ (m.erase k).capacity = m.capacity := by
  cases hfind : m.find k with
  | none =>
    rw [h.shaped.erase_of_absent hfind]
    exact ⟨rfl, rfl⟩
  | some i =>
    obtain ⟨-, hcell⟩ := h.shaped.cell_of_find hfind
    rw [h.shaped.erase_of_find hfind, usedSlots_eq, usedSlots_eq, table_eraseAt]
    exact ⟨Table.countBy_set_of_eq (by rw [hcell]; rfl), rfl⟩

/-- Growing leaves the entries as the only used slots. -/
theorem WellFormed.usedSlots_rehash (h : m.WellFormed) : m.rehash.usedSlots = m.size := by
  obtain ⟨hmoving, -, hcount, -, -⟩ := Table.grow_spec hashIndex m.table
  rw [usedSlots_eq, h.shaped.table_rehash, Table.used_eq_count hmoving.clean, hcount, ← h.size_eq]

/-- An insertion uses one more slot when its loop stops at a never-used one. -/
theorem WellFormed.usedSlots_insert (h : m.WellFormed) (k : UInt64) (o : LiveOrder) :
    (m.grown.TakesNeverUsed k → (m.insert k o).usedSlots = m.grown.usedSlots + 1) ∧
      (¬ m.grown.TakesNeverUsed k → (m.insert k o).usedSlots = m.grown.usedSlots) ∧
      (m.insert k o).capacity = m.grown.capacity := by
  obtain ⟨i, hslot, heq⟩ := h.insert_eq k o
  obtain ⟨d, hd, hdi, -⟩ := Table.insertionSlot_eq_some_iff.mp hslot
  have hi : i < m.grown.table.capacity := hdi ▸ Nat.mod_lt _ (by omega)
  rw [h.grown.shaped.takesNeverUsed_iff, heq, usedSlots_eq, usedSlots_eq, table_insertAt]
  simp only [hslot, Option.some.injEq, exists_eq_left']
  refine ⟨fun hnever => ?_, fun hused => ?_, rfl⟩
  · exact Table.countBy_set_of_false hi (by rw [hnever]; rfl) rfl
  · exact Table.countBy_set_of_eq (by rw [Bool.eq_false_iff.mpr hused]; rfl)

/-- An insertion keeps the bound exactly under its condition. -/
theorem WellFormed.insert_bounded_iff (h : m.WellFormed) (hused : m.usedSlots * 4 ≤ m.capacity * 3)
    (k : UInt64) (o : LiveOrder) :
    (m.insert k o).usedSlots * 4 ≤ (m.insert k o).capacity * 3 ↔ m.InsertKeepsBound k := by
  obtain ⟨htakes, hreuses, hcap⟩ := h.usedSlots_insert k o
  have hload := h.load
  have hpos := h.capacity_pos
  obtain ⟨quarter, hquarter⟩ := h.four_dvd
  unfold InsertKeepsBound
  rw [hcap]
  by_cases hgrow : m.size * 4 ≥ m.capacity * 3
  · -- the doubled table has room for the entries and one more
    have hgrown : m.grown = m.rehash := if_pos hgrow
    have hrehash := h.usedSlots_rehash
    have hdouble : m.rehash.capacity = m.capacity * 2 := rfl
    rw [hgrown] at htakes hreuses ⊢
    refine iff_of_true ?_ fun hlt => by omega
    by_cases hnever : m.rehash.TakesNeverUsed k
    · rw [htakes hnever]
      omega
    · rw [hreuses hnever]
      omega
  · have hgrown : m.grown = m := if_neg hgrow
    rw [hgrown] at htakes hreuses ⊢
    by_cases hnever : m.TakesNeverUsed k
    · rw [htakes hnever]
      exact ⟨fun hle _ _ => hle, fun hle => hle (by omega) hnever⟩
    · rw [hreuses hnever]
      exact iff_of_true hused fun _ htakes => absurd htakes hnever

/-- At every point of a history at least a quarter of the slots were never used, and unsuccessful
searches end accordingly, exactly when every insertion of it meets its condition. -/
theorem boundedProbes_iff (ops : List MapOp) :
    (∀ done, done <+: ops → (afterOps done).BoundedProbes) ↔
      ∀ done k o, done ++ [.insert k o] <+: ops → (afterOps done).InsertKeepsBound k := by
  have hpoint (done : List MapOp) : (afterOps done).BoundedProbes ↔ _ :=
    (afterOps_wellFormed done).boundedProbes_iff_used
  simp only [hpoint]
  refine forall_insert_iff ?_ (fun done k o hused => ?_) fun done k hused => ?_
  · rw [afterOps, List.foldl_nil, usedSlots_empty, Nat.zero_mul]
    exact Nat.zero_le _
  · rw [afterOps_snoc]
    exact (afterOps_wellFormed done).insert_bounded_iff hused k o
  · obtain ⟨hsame, hcap⟩ := (afterOps_wellFormed done).usedSlots_erase k
    rw [afterOps_snoc, applyOp, hsame, hcap]
    exact hused

/-! ## A session of short-lived orders -/

/-- The reference with a given hash: each round of `hash` undone, last round first. -/
def unhash (index : UInt64) : UInt64 :=
  let key := index ^^^ (index >>> 33)
  let key := key * 0x9cb4b2f8129337db
  let key := key ^^^ (key >>> 33)
  let key := key * 0x4f74430c22a54005
  key ^^^ (key >>> 33)

/-- A round that mixes in the upper bits undoes itself. -/
theorem xorShift_xorShift (key : UInt64) :
    (key ^^^ (key >>> 33)) ^^^ ((key ^^^ (key >>> 33)) >>> 33) = key := by
  have hgone : key >>> 33 >>> 33 = 0 := by
    apply UInt64.toNat_inj.mp
    have hlt := key.toNat_lt
    simp only [UInt64.toNat_shiftRight, Nat.shiftRight_eq_div_pow]
    change key.toNat / 2 ^ 33 / 2 ^ 33 = 0
    omega
  rw [UInt64.shiftRight_xor, hgone, UInt64.xor_zero, UInt64.xor_assoc, UInt64.xor_self,
    UInt64.xor_zero]

/-- The multipliers of `unhash` invert those of `hash` modulo `2 ^ 64`. -/
theorem hash_unhash (index : UInt64) : hash (unhash index) = index := by
  have hfirst : (0x4f74430c22a54005 : UInt64) * 0xff51afd7ed558ccd = 1 := by decide
  have hsecond : (0x9cb4b2f8129337db : UInt64) * 0xc4ceb9fe1a85ec53 = 1 := by decide
  simp only [hash, unhash, xorShift_xorShift, UInt64.mul_assoc, hfirst, hsecond, UInt64.mul_one]

/-- A session that adds and cancels `n` orders, one at a time, at successive home slots. -/
def churn (n : ℕ) : List MapOp :=
  (List.range n).flatMap fun i => [.insert (unhash (.ofNat i)) {}, .erase (unhash (.ofNat i))]

/-- The map after the session: no entry, and a tombstone in each home slot. -/
def churned (n : ℕ) : FlatOrderMap :=
  { empty with slots := fun i => if i < n then { orderRef := TOMBSTONE } else {} }

/-- The home slot of the order that a session of `n` orders is followed by. -/
theorem home_unhash {n : ℕ} (hn : n < 2 ^ 20) (m : FlatOrderMap)
    (hmask : m.mask = defaultCapacity - 1) : m.home (unhash (.ofNat n)) = n := by
  rw [home, hash_unhash, hmask, UInt64.toNat_ofNat_of_lt' (Nat.lt_trans hn (by decide)),
    defaultCapacity, Nat.and_two_pow_sub_one_eq_mod, Nat.mod_eq_of_lt hn]

/-- An order at a never-used home slot goes into that slot and leaves a tombstone in it. -/
theorem churned_succ {n : ℕ} (hn : n < 2 ^ 20) :
    ((churned n).insert (unhash (.ofNat n)) {}).erase (unhash (.ofNat n)) = churned (n + 1) := by
  have hcap : defaultCapacity = 1048575 + 1 := by decide
  generalize hk : unhash (.ofNat n) = k
  have hgrown : (churned n).grown = churned n := if_neg
    (show ¬ 0 * 4 ≥ defaultCapacity * 3 by decide)
  let filled : FlatOrderMap :=
    { churned n with slots := Function.update (churned n).slots n (stored k {}), size := 0 + 1 }
  have hfill : (churned n).insertVisit k {} n = some filled := by
    simp [insertVisit, churned, filled, empty]
  have hinsert : (churned n).insert k {} = filled := by
    rw [insert, hgrown, ← hk, home_unhash hn _ rfl, hk]
    change (probe _ _ defaultCapacity n).getD _ = _
    rw [hcap, probe_of_visit_eq_some _ hfill, Option.getD_some]
  have hslots : Function.update (churned n).slots n { orderRef := TOMBSTONE } =
      (churned (n + 1)).slots := by
    funext i
    by_cases hi : i = n
    · subst hi
      simp [churned]
    · have hlt : i < n ↔ i < n + 1 := by omega
      simp only [Function.update_of_ne hi, churned, hlt]
  have hfree : filled.eraseVisit k n = some (churned (n + 1)) := by
    simp only [churned] at hslots
    simp [eraseVisit, filled, stored, churned, empty, hslots]
  have herase : filled.erase k = churned (n + 1) := by
    rw [erase, ← hk, home_unhash hn _ rfl, hk]
    change (probe _ _ defaultCapacity n).getD _ = _
    rw [hcap, probe_of_visit_eq_some _ hfree, Option.getD_some]
  rw [hinsert, herase]

/-- The session leaves the tombstones and nothing else. -/
theorem afterOps_churn {n : ℕ} (hn : n ≤ 2 ^ 20) : afterOps (churn n) = churned n := by
  induction n with
  | zero => simp [afterOps, churn, churned, empty]
  | succ n ih =>
    have hsplit : churn (n + 1) = churn n ++
        [.insert (unhash (.ofNat n)) {}, .erase (unhash (.ofNat n))] := by
      simp [churn, List.range_succ]
    rw [hsplit, afterOps, List.foldl_append, ← afterOps, ih (by omega), List.foldl_cons,
      List.foldl_cons, List.foldl_nil, applyOp, applyOp, churned_succ (by omega)]

/-- After as many orders as there are slots every slot is a tombstone: none was never used, and
a lookup goes through all of them. -/
theorem churn_not_bounded :
    (afterOps (churn (2 ^ 20))).size = 0 ∧
      (afterOps (churn (2 ^ 20))).usedSlots = (afterOps (churn (2 ^ 20))).capacity ∧
      (∀ k, probe ((afterOps (churn (2 ^ 20))).findVisit k) (afterOps (churn (2 ^ 20))).next
        (afterOps (churn (2 ^ 20))).capacity ((afterOps (churn (2 ^ 20))).home k) = none) ∧
      ¬ ∀ done, done <+: churn (2 ^ 20) → (afterOps done).BoundedProbes := by
  have hslot (i : ℕ) (hi : i < defaultCapacity) :
      (churned (2 ^ 20)).slots i = { orderRef := TOMBSTONE } := if_pos hi
  have hshaped : (churned (2 ^ 20)).Shaped := ⟨⟨20, rfl⟩, rfl⟩
  have hused : (churned (2 ^ 20)).usedSlots = defaultCapacity := by
    rw [usedSlots, Finset.filter_true_of_mem, Finset.card_range]
    · rfl
    · intro i hi hnever
      rw [hslot i (Finset.mem_range.mp hi)] at hnever
      exact absurd hnever.2 (by decide)
  have hall (k : UInt64) : probe ((churned (2 ^ 20)).findVisit k) (churned (2 ^ 20)).next
      (churned (2 ^ 20)).capacity ((churned (2 ^ 20)).home k) = none := by
    rw [hshaped.home_eq]
    refine (probe_eq_none_iff hshaped.next_eq _ _).mpr fun e _ => ?_
    have hi : (hashIndex k + e) % defaultCapacity < defaultCapacity := Nat.mod_lt _ (by decide)
    have hpass (slot : LiveOrder) (h : slot = { orderRef := TOMBSTONE }) :
        slot.occupied = false ∧ slot.orderRef ≠ EMPTY := by
      subst h
      exact ⟨rfl, by decide⟩
    obtain ⟨hfree, hne⟩ := hpass _ (hslot _ hi)
    change (churned (2 ^ 20)).findVisit k ((hashIndex k + e) % defaultCapacity) = none
    simp only [findVisit, hfree, Bool.not_false, Bool.true_and, beq_iff_eq, hne, if_false,
      Bool.false_and, Bool.false_eq_true]
  rw [afterOps_churn le_rfl]
  refine ⟨rfl, hused, hall, fun h => ?_⟩
  have hbound := (h _ List.prefix_rfl).used
  rw [afterOps_churn le_rfl, hused] at hbound
  exact absurd hbound (by decide)

end FlatOrderMap

end NanoRing
