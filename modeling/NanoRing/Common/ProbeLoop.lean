import Mathlib.Data.Nat.ModEq

/-!
# Bounded cyclic probe loops

A probe loop visits the indices `h, h + 1, …` of a cyclic array and returns from its
body at the first index whose visit yields a result. The loops here are bounded by a
visit budget, so they are total; an exhausted budget returns `none`.

The result of a loop is characterized by the distance from the starting index, which
is the form that invariants about probe paths are stated in.
-/

namespace ProbeLoop

variable {β γ : Type*}

/-- Visit successive indices until one of them yields a result or the budget is spent. -/
def probe (visit : ℕ → Option β) (next : ℕ → ℕ) : ℕ → ℕ → Option β
  | 0, _ => none
  | budget + 1, idx =>
    match visit idx with
    | some result => some result
    | none => probe visit next budget (next idx)

/-- A probe that ends at once returns the result of its first visit. -/
theorem probe_of_visit_eq_some {visit : ℕ → Option β} {next : ℕ → ℕ} {idx : ℕ} {result : β}
    (budget : ℕ) (h : visit idx = some result) : probe visit next (budget + 1) idx = some result := by
  simp only [probe, h]

/-- A fruitless visit passes the loop on to the next index. -/
theorem probe_of_visit_eq_none {visit : ℕ → Option β} {next : ℕ → ℕ} {idx : ℕ}
    (budget : ℕ) (h : visit idx = none) :
    probe visit next (budget + 1) idx = probe visit next budget (next idx) := by
  simp only [probe, h]

/-- Loops whose bodies agree at every index agree. -/
theorem probe_congr {visit visit' : ℕ → Option β} {next next' : ℕ → ℕ}
    (hvisit : ∀ i, visit i = visit' i) (hnext : ∀ i, next i = next' i) (budget idx : ℕ) :
    probe visit next budget idx = probe visit' next' budget idx := by
  rw [funext hvisit, funext hnext]

/-- Post-processing the result of every visit post-processes the result of the loop. -/
theorem probe_map (visit : ℕ → Option β) (next : ℕ → ℕ) (f : β → γ) (budget idx : ℕ) :
    probe (fun i => (visit i).map f) next budget idx = (probe visit next budget idx).map f := by
  induction budget generalizing idx with
  | zero => rfl
  | succ budget ih =>
    cases hv : visit idx with
    | some result =>
      rw [probe_of_visit_eq_some budget hv, probe_of_visit_eq_some budget (by rw [hv, Option.map_some])]
      rfl
    | none =>
      rw [probe_of_visit_eq_none budget hv, probe_of_visit_eq_none budget, ih]
      rw [hv, Option.map_none]

section Cyclic

variable {visit : ℕ → Option β} {next : ℕ → ℕ} {capacity : ℕ}

/-- The index after the one at distance `d` is the one at distance `d + 1`. -/
theorem next_at_distance (hnext : ∀ i, next i = (i + 1) % capacity) (h d : ℕ) :
    next ((h + d) % capacity) = (h + (d + 1)) % capacity := by
  rw [hnext, Nat.mod_add_mod, Nat.add_assoc]

/-- Starting at distance `d`, the loop returns the first result found within the budget. -/
theorem probe_from_eq_some_iff (hnext : ∀ i, next i = (i + 1) % capacity) (h : ℕ) (result : β)
    (budget d : ℕ) :
    probe visit next budget ((h + d) % capacity) = some result ↔
      ∃ e, d ≤ e ∧ e < d + budget ∧ visit ((h + e) % capacity) = some result ∧
        ∀ c, d ≤ c → c < e → visit ((h + c) % capacity) = none := by
  induction budget generalizing d with
  | zero =>
    simp only [probe, reduceCtorEq, Nat.add_zero, false_iff]
    rintro ⟨e, hde, hed, -⟩
    omega
  | succ budget ih =>
    cases hv : visit ((h + d) % capacity) with
    | some first =>
      rw [probe_of_visit_eq_some budget hv]
      constructor
      · intro heq
        exact ⟨d, Nat.le_refl d, by omega, hv.trans heq, fun c hdc hcd => by omega⟩
      · rintro ⟨e, hde, -, hfound, hbefore⟩
        rcases Nat.eq_or_lt_of_le hde with rfl | hlt
        · exact hv.symm.trans hfound
        · rw [hbefore d (Nat.le_refl d) hlt] at hv
          contradiction
    | none =>
      rw [probe_of_visit_eq_none budget hv, next_at_distance hnext, ih]
      constructor
      · rintro ⟨e, hde, hlt, hfound, hbefore⟩
        refine ⟨e, by omega, by omega, hfound, fun c hdc hce => ?_⟩
        rcases Nat.eq_or_lt_of_le hdc with rfl | hlt'
        · exact hv
        · exact hbefore c hlt' hce
      · rintro ⟨e, hde, hlt, hfound, hbefore⟩
        have hne : d ≠ e := by
          rintro rfl
          rw [hv] at hfound
          contradiction
        exact ⟨e, by omega, by omega, hfound, fun c hdc hce => hbefore c (by omega) hce⟩

/-- A loop returns a result exactly when some visit within the budget yields it and no
earlier visit ended the loop. -/
theorem probe_eq_some_iff (hnext : ∀ i, next i = (i + 1) % capacity) (h : ℕ) (result : β)
    (budget : ℕ) :
    probe visit next budget (h % capacity) = some result ↔
      ∃ e < budget, visit ((h + e) % capacity) = some result ∧
        ∀ c < e, visit ((h + c) % capacity) = none := by
  simpa only [Nat.add_zero, Nat.zero_add, Nat.zero_le, true_and, forall_const]
    using probe_from_eq_some_iff hnext h result budget 0

/-- A loop is fruitless exactly when every visit within the budget is. -/
theorem probe_eq_none_iff (hnext : ∀ i, next i = (i + 1) % capacity) (h budget : ℕ) :
    probe visit next budget (h % capacity) = none ↔
      ∀ e < budget, visit ((h + e) % capacity) = none := by
  constructor
  · intro hnone e
    induction e using Nat.strong_induction_on with
    | _ e ih =>
      intro he
      cases hv : visit ((h + e) % capacity) with
      | none => rfl
      | some result =>
        have hsome := (probe_eq_some_iff hnext h result budget).mpr
          ⟨e, he, hv, fun c hce => ih c hce (by omega)⟩
        rw [hnone] at hsome
        contradiction
  · intro hall
    cases hp : probe visit next budget (h % capacity) with
    | none => rfl
    | some result =>
      obtain ⟨e, he, hfound, -⟩ := (probe_eq_some_iff hnext h result budget).mp hp
      rw [hall e he] at hfound
      contradiction

/-- A loop that ends within a budget ends alike within a larger one. -/
theorem probe_mono (hnext : ∀ i, next i = (i + 1) % capacity) {h budget budget' : ℕ}
    (hle : budget ≤ budget') {result : β}
    (hprobe : probe visit next budget (h % capacity) = some result) :
    probe visit next budget' (h % capacity) = some result := by
  obtain ⟨e, he, hfound, hbefore⟩ := (probe_eq_some_iff hnext h result budget).mp hprobe
  exact (probe_eq_some_iff hnext h result budget').mpr ⟨e, by omega, hfound, hbefore⟩

end Cyclic

/-- Every index of the array lies at some distance below the capacity. -/
theorem exists_distance {capacity : ℕ} (h : ℕ) {i : ℕ} (hi : i < capacity) :
    ∃ d < capacity, (h + d) % capacity = i := by
  have hpos : 0 < capacity := by omega
  have hr := Nat.mod_lt h hpos
  refine ⟨(i + (capacity - h % capacity)) % capacity, Nat.mod_lt _ hpos, ?_⟩
  rw [Nat.add_mod_mod, Nat.add_mod, ← Nat.mod_add_mod i, Nat.mod_eq_of_lt hi]
  rw [Nat.add_mod_mod, show h % capacity + (i + (capacity - h % capacity)) = i + capacity by omega,
    Nat.add_mod_right, Nat.mod_eq_of_lt hi]

/-- Two distances below the capacity that reach the same index are equal. -/
theorem distance_injective {capacity h d e : ℕ} (hd : d < capacity) (he : e < capacity)
    (heq : (h + d) % capacity = (h + e) % capacity) : d = e := by
  have hmod : d ≡ e [MOD capacity] := Nat.ModEq.add_left_cancel' h heq
  rwa [Nat.ModEq, Nat.mod_eq_of_lt hd, Nat.mod_eq_of_lt he] at hmod

end ProbeLoop
