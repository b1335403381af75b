import NanoRing.Common.ProbeTable
import Mathlib.Data.Nat.Find

/-!
# Lookups, insertions and deletions of a probed table

Every rule here speaks of the set of stored entries. A lookup in a probed table with
distinct keys answers with the stored entry of its key; an insertion that is not
shadowed replaces the entries of its key by the new one; a deletion removes them. An
insertion that is shadowed leaves two entries of one key behind.
-/

namespace ProbeTable

open ProbeLoop

namespace Table

variable {K V : Type*} {hash : K → ℕ} {t : Table K V} {k : K} {v : V} {i : ℕ}

/-! ## Writing one cell -/

/-- Writing a cell on the key's probe path keeps every entry reachable. -/
theorem Probed.set_full (hprobed : t.Probed hash) {d : ℕ} (hd : d < t.capacity)
    (hpath : ∀ e < d, t.cell ((hash k + e) % t.capacity) ≠ .never) :
    (t.set ((hash k + d) % t.capacity) (.full k v)).Probed hash := by
  have hused (j : ℕ) (h : t.cell j ≠ .never) :
      (t.set ((hash k + d) % t.capacity) (.full k v)).cell j ≠ .never := by
    by_cases hj : j = (hash k + d) % t.capacity
    · subst hj
      simp
    · rwa [set_cell_of_ne t hj]
  intro j hj key value hcell
  by_cases hji : j = (hash k + d) % t.capacity
  · subst hji
    rw [set_cell_self, Cell.full.injEq] at hcell
    obtain ⟨rfl, -⟩ := hcell
    exact ⟨d, hd, rfl, fun e he => hused _ (hpath e he)⟩
  · rw [set_cell_of_ne t hji] at hcell
    obtain ⟨e, he, hej, hbefore⟩ := hprobed j hj key value hcell
    exact ⟨e, he, hej, fun c hc => hused _ (hbefore c hc)⟩

/-- Deleting an entry keeps every other entry reachable. -/
theorem Probed.set_deleted (hprobed : t.Probed hash) : (t.set i .deleted).Probed hash := by
  intro j hj key value hcell
  by_cases hji : j = i
  · subst hji
    rw [set_cell_self] at hcell
    contradiction
  · rw [set_cell_of_ne t hji] at hcell
    obtain ⟨d, hd, hdj, hbefore⟩ := hprobed j hj key value hcell
    refine ⟨d, hd, hdj, fun e he => ?_⟩
    by_cases hei : (hash key + e) % t.capacity = i
    · simp [hei]
    · rw [set_capacity, set_cell_of_ne t hei]
      exact hbefore e he

/-- The entries after a write are the new one and those of the other cells. -/
theorem holds_set_full (hi : i < t.capacity) {key : K} {value : V} :
    (t.set i (.full k v)).Holds key value ↔
      (key = k ∧ value = v) ∨ ∃ j < t.capacity, j ≠ i ∧ t.cell j = .full key value := by
  constructor
  · rintro ⟨j, hj, hcell⟩
    by_cases hji : j = i
    · subst hji
      rw [set_cell_self, Cell.full.injEq] at hcell
      exact Or.inl ⟨hcell.1.symm, hcell.2.symm⟩
    · rw [set_cell_of_ne t hji] at hcell
      exact Or.inr ⟨j, hj, hji, hcell⟩
  · rintro (⟨rfl, rfl⟩ | ⟨j, hj, hji, hcell⟩)
    · exact ⟨i, hi, set_cell_self t i _⟩
    · exact ⟨j, hj, (set_cell_of_ne t hji _).trans hcell⟩

/-- The entries after a deletion are those of the other cells. -/
theorem holds_set_deleted {key : K} {value : V} :
    (t.set i .deleted).Holds key value ↔ ∃ j < t.capacity, j ≠ i ∧ t.cell j = .full key value := by
  constructor
  · rintro ⟨j, hj, hcell⟩
    by_cases hji : j = i
    · subst hji
      rw [set_cell_self] at hcell
      contradiction
    · exact ⟨j, hj, hji, (set_cell_of_ne t hji _).symm.trans hcell⟩
  · rintro ⟨j, hj, hji, hcell⟩
    exact ⟨j, hj, (set_cell_of_ne t hji _).trans hcell⟩

/-- A write keeps the keys distinct exactly when no other cell stores the key. -/
theorem distinct_set_full_iff (hdistinct : t.Distinct) (hi : i < t.capacity) :
    (t.set i (.full k v)).Distinct ↔ ∀ j < t.capacity, j ≠ i → ∀ w, t.cell j ≠ .full k w := by
  constructor
  · intro h j hj hji w hw
    exact hji (h j hj i hi k w v ((set_cell_of_ne t hji _).trans hw) (set_cell_self t i _))
  · intro hother a ha b hb key va vb hcella hcellb
    by_cases hai : a = i <;> by_cases hbi : b = i
    · rw [hai, hbi]
    · subst hai
      rw [set_cell_self, Cell.full.injEq] at hcella
      rw [set_cell_of_ne t hbi, ← hcella.1] at hcellb
      exact absurd hcellb (hother b hb hbi vb)
    · subst hbi
      rw [set_cell_self, Cell.full.injEq] at hcellb
      rw [set_cell_of_ne t hai, ← hcellb.1] at hcella
      exact absurd hcella (hother a ha hai va)
    · rw [set_cell_of_ne t hai] at hcella
      rw [set_cell_of_ne t hbi] at hcellb
      exact hdistinct a ha b hb key va vb hcella hcellb

/-- A deletion keeps the keys distinct. -/
theorem Distinct.set_deleted (hdistinct : t.Distinct) : (t.set i .deleted).Distinct := by
  intro a ha b hb key va vb hcella hcellb
  have hne (j : ℕ) (value : V) (h : (t.set i .deleted).cell j = .full key value) : j ≠ i := by
    rintro rfl
    rw [set_cell_self] at h
    contradiction
  have hai := hne a va hcella
  have hbi := hne b vb hcellb
  rw [set_cell_of_ne t hai] at hcella
  rw [set_cell_of_ne t hbi] at hcellb
  exact hdistinct a ha b hb key va vb hcella hcellb

/-- A key that is not stored is not shadowed. -/
theorem not_shadowed_of_absent (habsent : ∀ v, ¬ t.Holds k v) : ¬ t.Shadowed hash k := by
  rintro ⟨d, e, -, he, -, v, hcell⟩
  exact habsent v ⟨_, Nat.mod_lt _ (by omega), hcell⟩

/-! ## Rewriting the value of an entry -/

section Rewrite

variable {w : V}

/-- Rewriting the value of an entry keeps every entry reachable. -/
theorem Probed.set_value (hprobed : t.Probed hash) (hi : i < t.capacity)
    (hcell : t.cell i = .full k w) : (t.set i (.full k v)).Probed hash := by
  obtain ⟨d, hd, rfl, hpath⟩ := hprobed i hi k w hcell
  exact hprobed.set_full hd hpath

/-- Rewriting the value of an entry keeps the keys distinct. -/
theorem Distinct.set_value (hdistinct : t.Distinct) (hi : i < t.capacity)
    (hcell : t.cell i = .full k w) : (t.set i (.full k v)).Distinct :=
  (distinct_set_full_iff hdistinct hi).mpr
    fun j hj hji u hu => hji (hdistinct j hj i hi k u w hu hcell)

/-- Rewriting the value of an entry replaces that entry and no others. -/
theorem holds_set_value [DecidableEq K] (hdistinct : t.Distinct) (hi : i < t.capacity)
    (hcell : t.cell i = .full k w) {key : K} {value : V} :
    (t.set i (.full k v)).Holds key value ↔ if key = k then value = v else t.Holds key value := by
  rw [holds_set_full hi]
  by_cases hkey : key = k
  · subst hkey
    simp only [true_and, if_true, or_iff_left_iff_imp]
    rintro ⟨j, hj, hji, hother⟩
    exact absurd (hdistinct j hj i hi key value w hother hcell) hji
  · simp only [hkey, false_and, false_or, if_false]
    constructor
    · rintro ⟨j, hj, -, hother⟩
      exact ⟨j, hj, hother⟩
    · rintro ⟨j, hj, hother⟩
      refine ⟨j, hj, ?_, hother⟩
      rintro rfl
      rw [hcell, Cell.full.injEq] at hother
      exact hkey hother.1.symm

end Rewrite

variable [DecidableEq K]

/-! ## Lookups -/

/-- A stored key is located, even when it is stored twice. -/
theorem locate_isSome_of_holds (hprobed : t.Probed hash) (h : t.Holds k v) :
    ∃ j, t.locate hash k = some j := by
  classical
  obtain ⟨i, hi, hcell⟩ := h
  obtain ⟨d, hd, rfl, hpath⟩ := hprobed i hi k v hcell
  have hex : ∃ d, d < t.capacity ∧ ∃ w, t.cell ((hash k + d) % t.capacity) = .full k w :=
    ⟨d, hd, v, hcell⟩
  have hle : Nat.find hex ≤ d := Nat.find_min' hex ⟨hd, v, hcell⟩
  obtain ⟨hfirst, hfull⟩ := Nat.find_spec hex
  refine ⟨_, locate_eq_some_iff.mpr ⟨Nat.find hex, hfirst, rfl, hfull, fun e he => ?_⟩⟩
  refine ⟨hpath e (by omega), fun w hw => ?_⟩
  exact Nat.find_min hex he ⟨by omega, w, hw⟩

/-- Without a second entry of the key, the located index is the entry's own. -/
theorem locate_eq_of_cell (hprobed : t.Probed hash) (hdistinct : t.Distinct)
    (hi : i < t.capacity) (hcell : t.cell i = .full k v) : t.locate hash k = some i := by
  obtain ⟨j, hj⟩ := locate_isSome_of_holds hprobed ⟨i, hi, hcell⟩
  obtain ⟨hjlt, w, hw⟩ := locate_spec hj
  rw [hj, hdistinct j hjlt i hi k w v hw hcell]

/-- A lookup fails exactly when no cell stores its key. -/
theorem locate_eq_none_iff (hprobed : t.Probed hash) :
    t.locate hash k = none ↔ ∀ v, ¬ t.Holds k v := by
  constructor
  · intro hnone v h
    obtain ⟨j, hj⟩ := locate_isSome_of_holds hprobed h
    rw [hnone] at hj
    contradiction
  · intro habsent
    cases hloc : t.locate hash k with
    | none => rfl
    | some j =>
      obtain ⟨hj, w, hw⟩ := locate_spec hloc
      exact absurd ⟨j, hj, hw⟩ (habsent w)

/-- The value found is the one stored at the located index. -/
theorem lookup_eq_some_of_locate (hloc : t.locate hash k = some i) (hcell : t.cell i = .full k v) :
    t.lookup hash k = some v := by
  simp only [lookup, hloc, Option.bind_some, hcell, Cell.value?]

/-- A lookup answers with exactly the stored entry of its key. -/
theorem lookup_eq_some_iff (hprobed : t.Probed hash) (hdistinct : t.Distinct) :
    t.lookup hash k = some v ↔ t.Holds k v := by
  constructor
  · intro h
    obtain ⟨i, hloc, hvalue⟩ := Option.bind_eq_some_iff.mp h
    obtain ⟨hi, w, hw⟩ := locate_spec hloc
    rw [hw, Cell.value?, Option.some.injEq] at hvalue
    exact ⟨i, hi, hvalue ▸ hw⟩
  · rintro ⟨i, hi, hcell⟩
    exact lookup_eq_some_of_locate (locate_eq_of_cell hprobed hdistinct hi hcell) hcell

/-- A lookup answers nothing exactly when its key is not stored. -/
theorem lookup_eq_none_iff (hprobed : t.Probed hash) :
    t.lookup hash k = none ↔ ∀ v, ¬ t.Holds k v := by
  rw [← locate_eq_none_iff hprobed, lookup, Option.bind_eq_none_iff]
  constructor
  · intro h
    cases hloc : t.locate hash k with
    | none => rfl
    | some j =>
      obtain ⟨-, w, hw⟩ := locate_spec hloc
      have hnone := h j hloc
      rw [hw] at hnone
      contradiction
  · intro hnone j hj
    rw [hnone] at hj
    contradiction

/-! ## Insertions -/

/-- A second entry of the key outside the written slot is what a shadowed insertion leaves. -/
theorem shadowed_iff_other_entry (hdistinct : t.Distinct) (hslot : t.insertionSlot hash k = some i) :
    t.Shadowed hash k ↔ ∃ j < t.capacity, j ≠ i ∧ ∃ w, t.cell j = .full k w := by
  obtain ⟨d, hd, rfl, hstop, hbefore⟩ := insertionSlot_eq_some_iff.mp hslot
  constructor
  · rintro ⟨c, e, hce, he, hfree, w, hw⟩
    have hdc : d ≤ c := by
      by_contra hlt
      rw [(hbefore c (by omega)).1] at hfree
      contradiction
    refine ⟨_, Nat.mod_lt _ (by omega), fun heq => ?_, w, hw⟩
    have := distance_injective he hd heq
    omega
  · rintro ⟨j, hj, hji, w, hw⟩
    obtain ⟨e, he, rfl⟩ := exists_distance (hash k) hj
    have hde : d < e := by
      rcases lt_trichotomy e d with hlt | rfl | hlt
      · exact absurd hw ((hbefore e hlt).2 w)
      · exact absurd rfl hji
      · exact hlt
    refine ⟨d, e, hde, he, ?_, w, hw⟩
    rcases hstop with hfree | ⟨u, hu⟩
    · exact hfree
    · exact absurd (hdistinct _ hj _ (Nat.mod_lt _ (by omega)) k w u hw hu) hji

/-- An insertion keeps every entry reachable. -/
theorem Probed.insert (hprobed : t.Probed hash) : (t.insert hash k v).Probed hash := by
  unfold Table.insert
  split
  · rename_i i hslot
    obtain ⟨d, hd, rfl, -, hbefore⟩ := insertionSlot_eq_some_iff.mp hslot
    refine hprobed.set_full hd fun e he hnever => ?_
    have hfull := (hbefore e he).1
    rw [hnever] at hfull
    contradiction
  · exact hprobed

/-- A table with room keeps its keys distinct exactly when the insertion is not shadowed. -/
theorem distinct_insert_iff (hdistinct : t.Distinct)
    (hfree : ∃ j < t.capacity, (t.cell j).isFull = false) :
    (t.insert hash k v).Distinct ↔ ¬ t.Shadowed hash k := by
  obtain ⟨i, hslot⟩ := insertionSlot_isSome hash k hfree
  obtain ⟨d, hd, hdi, -⟩ := insertionSlot_eq_some_iff.mp hslot
  have hi : i < t.capacity := hdi ▸ Nat.mod_lt _ (by omega)
  rw [shadowed_iff_other_entry hdistinct hslot]
  simp only [Table.insert, hslot, distinct_set_full_iff hdistinct hi, not_exists, not_and, ne_eq]

/-- An insertion that is not shadowed replaces the entries of its key by the new one. -/
theorem holds_insert (hdistinct : t.Distinct)
    (hfree : ∃ j < t.capacity, (t.cell j).isFull = false) (hshadow : ¬ t.Shadowed hash k)
    {key : K} {value : V} :
    (t.insert hash k v).Holds key value ↔ if key = k then value = v else t.Holds key value := by
  obtain ⟨i, hslot⟩ := insertionSlot_isSome hash k hfree
  obtain ⟨d, hd, hdi, hstop, -⟩ := insertionSlot_eq_some_iff.mp hslot
  have hi : i < t.capacity := hdi ▸ Nat.mod_lt _ (by omega)
  rw [shadowed_iff_other_entry hdistinct hslot] at hshadow
  simp only [Table.insert, hslot, holds_set_full hi]
  by_cases hkey : key = k
  · subst hkey
    simp only [true_and, if_true, or_iff_left_iff_imp]
    rintro ⟨j, hj, hji, hcell⟩
    exact absurd ⟨j, hj, hji, value, hcell⟩ hshadow
  · simp only [hkey, false_and, false_or, if_false]
    constructor
    · rintro ⟨j, hj, -, hcell⟩
      exact ⟨j, hj, hcell⟩
    · rintro ⟨j, hj, hcell⟩
      refine ⟨j, hj, fun hji => ?_, hcell⟩
      subst hji
      rcases hstop with hnot | ⟨u, hu⟩
      · rw [hcell] at hnot
        contradiction
      · rw [hcell, Cell.full.injEq] at hu
        exact hkey hu.1

/-! ## Deletions -/

/-- A deletion keeps every other entry reachable. -/
theorem Probed.erase (hprobed : t.Probed hash) : (t.erase hash k).Probed hash := by
  unfold Table.erase
  split
  · exact hprobed.set_deleted
  · exact hprobed

/-- A deletion keeps the keys distinct. -/
theorem Distinct.erase (hdistinct : t.Distinct) : (t.erase hash k).Distinct := by
  unfold Table.erase
  split
  · exact hdistinct.set_deleted
  · exact hdistinct

/-- A deletion adds no entry. -/
theorem of_holds_erase {key : K} {value : V} (h : (t.erase hash k).Holds key value) :
    t.Holds key value := by
  unfold Table.erase at h
  split at h
  · obtain ⟨j, hj, -, hcell⟩ := holds_set_deleted.mp h
    exact ⟨j, hj, hcell⟩
  · exact h

/-- A deletion removes the entries of its key and no others. -/
theorem holds_erase (hprobed : t.Probed hash) (hdistinct : t.Distinct) {key : K} {value : V} :
    (t.erase hash k).Holds key value ↔ key ≠ k ∧ t.Holds key value := by
  unfold Table.erase
  cases hloc : t.locate hash k with
  | none =>
    refine ⟨fun h => ⟨?_, h⟩, And.right⟩
    rintro rfl
    exact (locate_eq_none_iff hprobed).mp hloc value h
  | some i =>
    obtain ⟨hi, w, hw⟩ := locate_spec hloc
    rw [holds_set_deleted]
    constructor
    · rintro ⟨j, hj, hji, hcell⟩
      refine ⟨?_, j, hj, hcell⟩
      rintro rfl
      exact hji (hdistinct j hj i hi key value w hcell hw)
    · rintro ⟨hkey, j, hj, hcell⟩
      refine ⟨j, hj, ?_, hcell⟩
      rintro rfl
      rw [hcell, Cell.full.injEq] at hw
      exact hkey hw.1

end Table

end ProbeTable
