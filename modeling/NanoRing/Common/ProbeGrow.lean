import NanoRing.Common.ProbeUpdate

/-!
# Entry counts and growth of an open-addressing table

Growing re-places every entry, in cell order, into an empty table of twice the capacity.
A re-placed entry goes to the first cell of its new probe path without an entry, with no
key comparison: the keys are distinct, so none is needed. The induction is over the
half-moved table, whose entries are exactly those of the cells already visited.
-/

namespace ProbeTable

open ProbeLoop

namespace Table

variable {K V : Type*} {hash : K → ℕ} {t : Table K V} {k : K} {v : V} {i : ℕ}

/-! ## Counting cells -/

/-- The number of cells that satisfy a test. -/
def countBy (p : Cell K V → Bool) (t : Table K V) : ℕ :=
  ((Finset.range t.capacity).filter fun i => p (t.cell i)).card

theorem count_eq_countBy (t : Table K V) : t.count = t.countBy Cell.isFull := rfl

section CountBy

variable {p : Cell K V → Bool} {c : Cell K V}

/-- A write that does not change the test of its cell keeps the count. -/
theorem countBy_set_of_eq (hsame : p c = p (t.cell i)) : (t.set i c).countBy p = t.countBy p := by
  have htest (j : ℕ) : p ((t.set i c).cell j) = p (t.cell j) := by
    by_cases hji : j = i
    · subst hji
      rw [set_cell_self, hsame]
    · rw [set_cell_of_ne t hji]
  simp only [countBy, set_capacity, htest]

/-- A write that makes the test of its cell true adds one to the count. -/
theorem countBy_set_of_false (hi : i < t.capacity) (hold : p (t.cell i) = false)
    (hnew : p c = true) : (t.set i c).countBy p = t.countBy p + 1 := by
  have hset : ((Finset.range t.capacity).filter fun j => p ((t.set i c).cell j)) =
      Insert.insert i ((Finset.range t.capacity).filter fun j => p (t.cell j)) := by
    ext j
    by_cases hji : j = i
    · subst hji
      simp [hi, hnew]
    · simp [set_cell_of_ne t hji, hji]
  rw [countBy, set_capacity, hset, Finset.card_insert_of_notMem (by simp [hold]), countBy]

/-- A write that makes the test of its cell false takes one from the count, which was positive. -/
theorem countBy_set_of_true (hi : i < t.capacity) (hold : p (t.cell i) = true)
    (hnew : p c = false) : (t.set i c).countBy p + 1 = t.countBy p := by
  have hset : ((Finset.range t.capacity).filter fun j => p ((t.set i c).cell j)) =
      ((Finset.range t.capacity).filter fun j => p (t.cell j)).erase i := by
    ext j
    by_cases hji : j = i
    · subst hji
      simp [hnew]
    · simp [set_cell_of_ne t hji, hji]
  rw [countBy, set_capacity, hset]
  exact Finset.card_erase_add_one (by simp [hi, hold])

/-- A stretch of a probe path that is longer than the count has a cell that fails the test. -/
theorem exists_false_on_path (h : ℕ) {n : ℕ} (hn : n ≤ t.capacity)
    (hcount : t.countBy p < n) : ∃ d < n, p (t.cell ((h + d) % t.capacity)) = false := by
  by_contra hnone
  have htest (d : ℕ) (hd : d < n) : p (t.cell ((h + d) % t.capacity)) = true := by
    by_contra hfalse
    exact hnone ⟨d, hd, by simpa using hfalse⟩
  have hle : (Finset.range n).card ≤ t.countBy p := by
    refine Finset.card_le_card_of_injOn (fun d => (h + d) % t.capacity) (fun d hd => ?_) ?_
    · have hd := Finset.mem_range.mp hd
      simp only [Finset.coe_filter, Finset.mem_range, Set.mem_ofPred_eq]
      exact ⟨Nat.mod_lt _ (by omega), htest d hd⟩
    · intro d hd e he heq
      have hd := Finset.mem_range.mp hd
      have he := Finset.mem_range.mp he
      exact distance_injective (by omega) (by omega) heq
  rw [Finset.card_range] at hle
  omega

end CountBy

/-- A table with fewer entries than cells has a cell without an entry. -/
theorem exists_free_of_count_lt (h : t.count < t.capacity) :
    ∃ j < t.capacity, (t.cell j).isFull = false := by
  obtain ⟨d, hd, hfree⟩ := exists_false_on_path 0 le_rfl (t.count_eq_countBy ▸ h)
  exact ⟨_, Nat.mod_lt _ (by omega), hfree⟩

/-- Filling a cell without an entry adds one to the count. -/
theorem count_set_full (hi : i < t.capacity) (hfree : (t.cell i).isFull = false) :
    (t.set i (.full k v)).count = t.count + 1 := countBy_set_of_false hi hfree rfl

/-- Overwriting an entry keeps the count. -/
theorem count_set_full_of_full (hfull : (t.cell i).isFull = true) :
    (t.set i (.full k v)).count = t.count := countBy_set_of_eq (by rw [hfull]; rfl)

/-- Deleting an entry takes one from the count, which was positive. -/
theorem count_set_deleted (hi : i < t.capacity) (hfull : (t.cell i).isFull = true) :
    (t.set i .deleted).count + 1 = t.count := countBy_set_of_true hi hfull rfl

/-- The count of an empty table is zero. -/
theorem count_of_never (capacity : ℕ) : (⟨capacity, fun _ => .never⟩ : Table K V).count = 0 := by
  simp [count]

/-- The number of cells that were ever used: those with an entry and the deleted ones. -/
def used (t : Table K V) : ℕ := t.countBy fun c => !c.isNever

/-- Without deleted cells the used cells are those with an entry. -/
theorem used_eq_count (hclean : ∀ i, t.cell i ≠ .deleted) : t.used = t.count := by
  have htest (i : ℕ) : (!(t.cell i).isNever) = (t.cell i).isFull := by
    cases hcell : t.cell i with
    | deleted => exact absurd hcell (hclean i)
    | never | full => rfl
  simp only [used, countBy, count, htest]

/-! ## Placing an entry without comparing keys -/

/-- The first cell of the key's probe path that has no entry. -/
def freeSlot (hash : K → ℕ) (t : Table K V) (k : K) : Option ℕ :=
  probe (fun i => if (t.cell i).isFull then none else some i) t.next t.capacity
    (hash k % t.capacity)

/-- Store an entry in the first free cell of its probe path. -/
def place (hash : K → ℕ) (t : Table K V) (k : K) (v : V) : Table K V :=
  match t.freeSlot hash k with
  | some i => t.set i (.full k v)
  | none => t

/-- The search for a free cell ends when there is one, at the first on the probe path. -/
theorem freeSlot_spec (hash : K → ℕ) (k : K)
    (hfree : ∃ j < t.capacity, (t.cell j).isFull = false) :
    ∃ d < t.capacity, t.freeSlot hash k = some ((hash k + d) % t.capacity) ∧
      (t.cell ((hash k + d) % t.capacity)).isFull = false ∧
      ∀ e < d, (t.cell ((hash k + e) % t.capacity)).isFull = true := by
  cases hslot : t.freeSlot hash k with
  | none =>
    obtain ⟨j, hj, hfree⟩ := hfree
    obtain ⟨d, hd, rfl⟩ := exists_distance (hash k) hj
    have hpass := (probe_eq_none_iff t.next_eq (hash k) t.capacity).mp hslot d hd
    simp [hfree] at hpass
  | some i =>
    obtain ⟨d, hd, hstop, hbefore⟩ :=
      (probe_eq_some_iff t.next_eq (hash k) i t.capacity).mp hslot
    have hnot : (t.cell ((hash k + d) % t.capacity)).isFull = false := by
      by_contra hfull
      simp [Bool.not_eq_false _ ▸ hfull] at hstop
    simp only [hnot, Bool.false_eq_true, if_false, Option.some.injEq] at hstop
    refine ⟨d, hd, by rw [hstop], hnot, fun e he => ?_⟩
    by_contra hfull
    have hpass := hbefore e he
    simp [Bool.not_eq_true _ ▸ hfull] at hpass

/-- A half-moved table: every entry is reachable, and no cell is marked as deleted. -/
structure Moving (hash : K → ℕ) (t : Table K V) : Prop where
  probed : t.Probed hash
  clean : ∀ i, t.cell i ≠ .deleted

/-- Placing an entry adds it, and keeps a half-moved table half-moved. -/
theorem place_spec (hmoving : t.Moving hash) (hroom : t.count < t.capacity) :
    (t.place hash k v).Moving hash ∧ (t.place hash k v).capacity = t.capacity ∧
      (t.place hash k v).count = t.count + 1 ∧
      (∀ key value, (t.place hash k v).Holds key value ↔
        (key = k ∧ value = v) ∨ t.Holds key value) ∧
      (t.Distinct → (∀ w, ¬ t.Holds k w) → (t.place hash k v).Distinct) := by
  obtain ⟨d, hd, hslot, hfree, hbefore⟩ :=
    freeSlot_spec hash k (exists_free_of_count_lt hroom)
  have hi : (hash k + d) % t.capacity < t.capacity := Nat.mod_lt _ (by omega)
  have hpath : ∀ e < d, t.cell ((hash k + e) % t.capacity) ≠ .never := by
    intro e he hnever
    have hfull := hbefore e he
    rw [hnever] at hfull
    contradiction
  simp only [place, hslot]
  refine ⟨⟨hmoving.probed.set_full hd hpath, fun j => ?_⟩, rfl, count_set_full hi hfree,
    fun key value => ?_, fun hdistinct habsent => ?_⟩
  · by_cases hji : j = (hash k + d) % t.capacity
    · simp [hji]
    · rw [set_cell_of_ne t hji]
      exact hmoving.clean j
  · rw [holds_set_full hi]
    refine or_congr_right ⟨fun ⟨j, hj, _, hcell⟩ => ⟨j, hj, hcell⟩, fun ⟨j, hj, hcell⟩ => ?_⟩
    refine ⟨j, hj, ?_, hcell⟩
    rintro rfl
    rw [hcell] at hfree
    contradiction
  · exact (distinct_set_full_iff hdistinct hi).mpr fun j hj _ w hw => habsent w ⟨j, hj, hw⟩

/-! ## Growing -/

/-- Move the entry of one old cell, if it has one, into the new table. -/
def moveCell (hash : K → ℕ) (old new : Table K V) (i : ℕ) : Table K V :=
  match old.cell i with
  | .full k v => new.place hash k v
  | _ => new

/-- The table after the first `n` cells have been moved into `twice` the capacity. -/
def moved (hash : K → ℕ) (t : Table K V) (n : ℕ) : Table K V :=
  (List.range n).foldl (moveCell hash t) ⟨t.capacity * 2, fun _ => .never⟩

/-- Re-place every entry into an empty table of twice the capacity. -/
def grow (hash : K → ℕ) (t : Table K V) : Table K V := t.moved hash t.capacity

theorem moved_succ (hash : K → ℕ) (t : Table K V) (n : ℕ) :
    t.moved hash (n + 1) = moveCell hash t (t.moved hash n) n := by
  rw [moved, List.range_succ, List.foldl_append, List.foldl_cons, List.foldl_nil, moved]

/-- What holds of the half-moved table after `n` cells. -/
structure MovedSpec (hash : K → ℕ) (t : Table K V) (n : ℕ) : Prop where
  moving : (t.moved hash n).Moving hash
  capacity : (t.moved hash n).capacity = t.capacity * 2
  count : (t.moved hash n).count = ((Finset.range n).filter fun i => (t.cell i).isFull).card
  holds : ∀ k v, (t.moved hash n).Holds k v ↔ ∃ i < n, t.cell i = .full k v
  distinct : t.Distinct → (t.moved hash n).Distinct

/-- Moving a stored entry places it into the new table. -/
theorem MovedSpec.succ_full {n : ℕ} (ih : t.MovedSpec hash n) (hn : n < t.capacity) {k : K} {v : V}
    (hcell : t.cell n = .full k v) : t.MovedSpec hash (n + 1) := by
  have hrange : Finset.range (n + 1) = Insert.insert n (Finset.range n) := Finset.range_add_one
  have hmove : t.moved hash (n + 1) = (t.moved hash n).place hash k v := by
    rw [moved_succ, moveCell, hcell]
  have hle := Finset.card_filter_le (Finset.range n) fun i => (t.cell i).isFull
  rw [Finset.card_range] at hle
  have hroom : (t.moved hash n).count < (t.moved hash n).capacity := by
    rw [ih.count, ih.capacity]
    omega
  obtain ⟨hmoving, hcap, hcount, hholds, hdist⟩ := place_spec (k := k) (v := v) ih.moving hroom
  refine ⟨hmove ▸ hmoving, ?_, ?_, fun key value => ?_, fun hdistinct => ?_⟩
  · rw [hmove, hcap, ih.capacity]
  · rw [hmove, hcount, ih.count, hrange, Finset.filter_insert, if_pos (by rw [hcell]; rfl),
      Finset.card_insert_of_notMem (by simp)]
  · rw [hmove, hholds, ih.holds]
    constructor
    · rintro (⟨rfl, rfl⟩ | ⟨i, hi, hi'⟩)
      · exact ⟨n, by omega, hcell⟩
      · exact ⟨i, by omega, hi'⟩
    · rintro ⟨i, hi, hi'⟩
      rcases Nat.lt_succ_iff_lt_or_eq.mp hi with hlt | rfl
      · exact Or.inr ⟨i, hlt, hi'⟩
      · rw [hcell, Cell.full.injEq] at hi'
        exact Or.inl ⟨hi'.1.symm, hi'.2.symm⟩
  · rw [hmove]
    refine hdist (ih.distinct hdistinct) fun w hw => ?_
    obtain ⟨i, hi, hi'⟩ := (ih.holds k w).mp hw
    have := hdistinct i (by omega) n (by omega) k w v hi' hcell
    omega

/-- A cell without an entry is left behind. -/
theorem MovedSpec.succ_free {n : ℕ} (ih : t.MovedSpec hash n) (hcell : (t.cell n).isFull = false) :
    t.MovedSpec hash (n + 1) := by
  have hrange : Finset.range (n + 1) = Insert.insert n (Finset.range n) := Finset.range_add_one
  have hmove : t.moved hash (n + 1) = t.moved hash n := by
    rw [moved_succ, moveCell]
    split
    · rename_i hfull
      rw [hfull] at hcell
      contradiction
    · rfl
  refine ⟨hmove ▸ ih.moving, hmove ▸ ih.capacity, ?_, fun key value => ?_, fun hdistinct =>
    hmove ▸ ih.distinct hdistinct⟩
  · rw [hmove, ih.count, hrange, Finset.filter_insert, if_neg (by rw [hcell]; decide)]
  · rw [hmove, ih.holds]
    refine ⟨fun ⟨i, hi, hi'⟩ => ⟨i, by omega, hi'⟩, fun ⟨i, hi, hi'⟩ => ⟨i, ?_, hi'⟩⟩
    rcases Nat.lt_succ_iff_lt_or_eq.mp hi with hlt | rfl
    · exact hlt
    · rw [hi'] at hcell
      contradiction

/-- Moving the cells one by one keeps the half-moved table in step with the old cells. -/
theorem movedSpec (hash : K → ℕ) (t : Table K V) {n : ℕ} (hn : n ≤ t.capacity) :
    t.MovedSpec hash n := by
  induction n with
  | zero =>
    refine ⟨⟨?_, ?_⟩, rfl, by simp [moved, count], by simp [moved, Holds], fun _ => ?_⟩
    · intro i _ k v hcell
      contradiction
    · intro i hcell
      contradiction
    · intro i _ j _ k v w hcell
      contradiction
  | succ n ih =>
    have ih := ih (Nat.le_of_succ_le hn)
    cases hcell : t.cell n with
    | full k v => exact ih.succ_full hn hcell
    | never | deleted => exact ih.succ_free (by rw [hcell]; rfl)

/-- Growing keeps exactly the stored entries, at twice the capacity and with no deleted cell. -/
theorem grow_spec (hash : K → ℕ) (t : Table K V) :
    (t.grow hash).Moving hash ∧ (t.grow hash).capacity = t.capacity * 2 ∧
      (t.grow hash).count = t.count ∧ (∀ k v, (t.grow hash).Holds k v ↔ t.Holds k v) ∧
      (t.Distinct → (t.grow hash).Distinct) :=
  have h := movedSpec hash t le_rfl
  ⟨h.moving, h.capacity, h.count, h.holds, h.distinct⟩

/-- Growing changes no lookup. -/
theorem lookup_grow [DecidableEq K] (hprobed : t.Probed hash) (hdistinct : t.Distinct) (k : K) :
    (t.grow hash).lookup hash k = t.lookup hash k := by
  obtain ⟨hmoving, -, -, hholds, hkeeps⟩ := grow_spec hash t
  refine Option.ext fun v => ?_
  rw [lookup_eq_some_iff hmoving.probed (hkeeps hdistinct), hholds,
    lookup_eq_some_iff hprobed hdistinct]

/-- A table without deleted cells shadows no key. -/
theorem not_shadowed_of_clean (hprobed : t.Probed hash)
    (hclean : ∀ i, t.cell i ≠ .deleted) : ¬ t.Shadowed hash k := by
  rintro ⟨d, e, hde, he, hfree, v, hcell⟩
  have hpos : 0 < t.capacity := by omega
  obtain ⟨c, hc, hce, hpath⟩ := hprobed _ (Nat.mod_lt _ hpos) k v hcell
  obtain rfl := distance_injective hc he hce
  have hused := hpath d hde
  cases hd : t.cell ((hash k + d) % t.capacity) with
  | never => exact hused hd
  | deleted => exact hclean _ hd
  | full key value =>
    rw [hd] at hfree
    contradiction

end Table

end ProbeTable
