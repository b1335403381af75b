import Mathlib.Data.List.Induction
import Mathlib.Data.Nat.Notation

/-!
# Runs of an interleaved system

A system of threads is a partial step function: an action names the thread and the step it
takes, and a step that is not enabled has no result. A run is a list of actions, so a
statement about every run is a statement about every interleaving. A guarded run takes each
of its steps under a condition on the state before it. The outputs of a run are what its
steps give out. What holds at every point of a history, the empty one included, is settled
element by element.
-/

namespace Schedule

variable {State Action : Type*} {step : State → Action → Option State}

/-- Take the steps in order; a step that is not enabled ends the run without a result. -/
def run (step : State → Action → Option State) : State → List Action → Option State
  | s, [] => some s
  | s, a :: rest => (step s a).bind fun s' => run step s' rest

/-- Every step of the run is taken in a state that meets the guard. -/
def Guarded (step : State → Action → Option State) (guard : State → Action → Prop) (start : State)
    (actions : List Action) : Prop :=
  ∀ before a s, before ++ [a] <+: actions → run step start before = some s → guard s a

/-- A run takes its first step and then runs on. -/
theorem run_cons_eq_some_iff {s t : State} {a : Action} {rest : List Action} :
    run step s (a :: rest) = some t ↔ ∃ s', step s a = some s' ∧ run step s' rest = some t := by
  rw [run, Option.bind_eq_some_iff]

/-- A run of a concatenation is a run of each part. -/
theorem run_append (s : State) (left right : List Action) :
    run step s (left ++ right) = (run step s left).bind fun s' => run step s' right := by
  induction left generalizing s with
  | nil => rfl
  | cons a rest ih =>
    rw [List.cons_append, run, run, Option.bind_assoc]
    exact congrArg _ (funext ih)

/-- What every step preserves holds after every run. -/
theorem run_invariant {inv : State → Prop}
    (hstep : ∀ s a s', inv s → step s a = some s' → inv s') {s t : State} {actions : List Action}
    (hs : inv s) (h : run step s actions = some t) : inv t := by
  induction actions generalizing s with
  | nil => exact Option.some.inj h ▸ hs
  | cons a rest ih =>
    obtain ⟨s', hfirst, hrest⟩ := run_cons_eq_some_iff.mp h
    exact ih (hstep s a s' hs hfirst) hrest

/-- A run with one more step takes that step last. -/
theorem run_snoc_eq_some_iff {s t : State} {a : Action} {actions : List Action} :
    run step s (actions ++ [a]) = some t ↔ ∃ s', run step s actions = some s' ∧ step s' a = some t := by
  rw [run_append, Option.bind_eq_some_iff]
  simp only [run, Option.bind_fun_some]

/-- A part of a guarded run from its start is guarded. -/
theorem Guarded.of_prefix {guard : State → Action → Prop} {s : State} {before actions : List Action}
    (h : Guarded step guard s actions) (hbefore : before <+: actions) :
    Guarded step guard s before :=
  fun first a t hfirst ht => h first a t (hfirst.trans hbefore) ht

/-- A run is guarded when its first step is and the rest of it is. -/
theorem guarded_cons_iff {guard : State → Action → Prop} {s s' : State} {a : Action}
    {rest : List Action} (hfirst : step s a = some s') :
    Guarded step guard s (a :: rest) ↔ guard s a ∧ Guarded step guard s' rest := by
  constructor
  · intro h
    refine ⟨h [] a s (List.cons_prefix_cons.mpr ⟨rfl, List.nil_prefix⟩) rfl, ?_⟩
    intro before b t hbefore ht
    exact h (a :: before) b t (List.cons_prefix_cons.mpr ⟨rfl, hbefore⟩)
      (run_cons_eq_some_iff.mpr ⟨s', hfirst, ht⟩)
  · rintro ⟨ha, hrest⟩ before b t hbefore ht
    cases before with
    | nil =>
      obtain ⟨rfl, -⟩ := List.cons_prefix_cons.mp hbefore
      exact Option.some.inj ht ▸ ha
    | cons first before =>
      obtain ⟨rfl, hlater⟩ := List.cons_prefix_cons.mp hbefore
      obtain ⟨s'', hfirst', hrun⟩ := run_cons_eq_some_iff.mp ht
      obtain rfl := Option.some.inj (hfirst.symm.trans hfirst')
      exact hrest before b t hlater hrun

/-- Of a run that cannot take its first step only the guard of that step is asked. -/
theorem guarded_cons_of_none {guard : State → Action → Prop} {s : State} {a : Action}
    {rest : List Action} (hfirst : step s a = none) :
    Guarded step guard s (a :: rest) ↔ guard s a := by
  constructor
  · intro h
    exact h [] a s (List.cons_prefix_cons.mpr ⟨rfl, List.nil_prefix⟩) rfl
  · intro ha before b t hbefore ht
    cases before with
    | nil =>
      obtain ⟨rfl, -⟩ := List.cons_prefix_cons.mp hbefore
      exact Option.some.inj ht ▸ ha
    | cons first before =>
      obtain ⟨rfl, -⟩ := List.cons_prefix_cons.mp hbefore
      rw [run, hfirst] at ht
      contradiction

/-- A guard that can be tested is tested along the run. -/
instance decidableGuarded {guard : State → Action → Prop} [∀ s a, Decidable (guard s a)] :
    ∀ (s : State) (actions : List Action), Decidable (Guarded step guard s actions)
  | _, [] => isTrue fun _ _ _ hbefore => absurd (List.prefix_nil.mp hbefore) (by simp)
  | s, a :: rest =>
    match hfirst : step s a with
    | some s' =>
      have : Decidable (Guarded step guard s' rest) := decidableGuarded s' rest
      decidable_of_iff _ (guarded_cons_iff hfirst).symm
    | none => decidable_of_iff _ (guarded_cons_of_none hfirst).symm

/-- What every guarded step preserves holds after every guarded run. -/
theorem guarded_invariant {inv : State → Prop} {guard : State → Action → Prop}
    (hstep : ∀ s a s', inv s → guard s a → step s a = some s' → inv s') {s t : State}
    {actions : List Action} (hs : inv s) (hguard : Guarded step guard s actions)
    (h : run step s actions = some t) : inv t := by
  induction actions using List.reverseRecOn generalizing t with
  | nil => exact Option.some.inj h ▸ hs
  | append_singleton actions a ih =>
    obtain ⟨s', hbefore, hlast⟩ := run_snoc_eq_some_iff.mp h
    have hinv := ih (hguard.of_prefix (List.prefix_append actions [a])) hbefore
    exact hstep s' a t hinv (hguard actions a s' List.prefix_rfl hbefore) hlast

section Outputs

variable {Output : Type*} {out : State → Action → List Output}

/-- What the steps of a run give out, in order. -/
def outputs (step : State → Action → Option State) (out : State → Action → List Output) :
    State → List Action → List Output
  | _, [] => []
  | s, a :: rest => out s a ++ (step s a).elim [] fun s' => outputs step out s' rest

/-- A record to which every step adds what it gives out grows by the outputs of the run. -/
theorem record_eq_outputs (record : State → List Output)
    (hstep : ∀ s a s', step s a = some s' → record s' = record s ++ out s a) {s t : State}
    {actions : List Action} (h : run step s actions = some t) :
    record t = record s ++ outputs step out s actions := by
  induction actions generalizing s with
  | nil => exact Option.some.inj h ▸ (List.append_nil _).symm
  | cons a rest ih =>
    obtain ⟨s', hfirst, hrest⟩ := run_cons_eq_some_iff.mp h
    rw [ih hrest, hstep s a s' hfirst, outputs, hfirst, Option.elim_some, List.append_assoc]

/-- A last step gives out last. -/
theorem outputs_snoc {s t : State} {actions : List Action} (h : run step s actions = some t)
    (a : Action) : outputs step out s (actions ++ [a]) = outputs step out s actions ++ out t a := by
  induction actions generalizing s with
  | nil =>
    obtain rfl := Option.some.inj h
    have hlast : (step s a).elim [] (fun s' => outputs step out s' []) = [] := by
      cases step s a <;> rfl
    change out s a ++ (step s a).elim [] (fun s' => outputs step out s' []) = out s a
    rw [hlast, List.append_nil]
  | cons first rest ih =>
    obtain ⟨s', hfirst, hrest⟩ := run_cons_eq_some_iff.mp h
    rw [List.cons_append, outputs, outputs, hfirst, Option.elim_some, Option.elim_some, ih hrest,
      List.append_assoc]

/-- What every step keeps of the outputs so far and the state holds after every run. -/
theorem outputs_invariant (out : State → Action → List Output) (inv : List Output → State → Prop)
    (hstep : ∀ done s a s', inv done s → step s a = some s' → inv (done ++ out s a) s')
    {s t : State} {actions : List Action} (hs : inv [] s) (h : run step s actions = some t) :
    inv (outputs step out s actions) t := by
  induction actions using List.reverseRecOn generalizing t with
  | nil => exact Option.some.inj h ▸ hs
  | append_singleton actions a ih =>
    obtain ⟨s', hbefore, hlast⟩ := run_snoc_eq_some_iff.mp h
    rw [outputs_snoc hbefore]
    exact hstep _ s' a t (ih hbefore) hlast

end Outputs

/-! ## Histories -/

section Histories

variable {α : Type*}

/-- What is asked of each element and those before it is asked at each index. -/
theorem forall_snoc_prefix_iff {K : List α → α → Prop} {history : List α} :
    (∀ done a, done ++ [a] <+: history → K done a) ↔
      ∀ i, (hi : i < history.length) → K (history.take i) history[i] := by
  constructor
  · intro h i hi
    refine h _ _ ?_
    rw [List.take_append_getElem hi]
    exact List.take_prefix _ _
  · rintro h done a ⟨rest, rfl⟩
    have hi : done.length < (done ++ [a] ++ rest).length := by simp
    simpa using h done.length hi

/-- A property holds at every point of a history exactly when each of its elements keeps it. -/
theorem forall_prefix_iff {P : List α → Prop} {K : List α → α → Prop} {history : List α}
    (hnil : P [])
    (hstep : ∀ done a, done ++ [a] <+: history → (∀ before, before <+: done → P before) →
      (P (done ++ [a]) ↔ K done a)) :
    (∀ done, done <+: history → P done) ↔ ∀ done a, done ++ [a] <+: history → K done a := by
  constructor
  · intro h done a hdone
    refine (hstep done a hdone fun before hbefore => h before ?_).mp (h _ hdone)
    exact hbefore.trans ((List.prefix_append done [a]).trans hdone)
  · intro h done hdone
    have hall : ∀ before, before <+: done → P before := by
      induction done using List.reverseRecOn with
      | nil =>
        intro before hbefore
        exact List.prefix_nil.mp hbefore ▸ hnil
      | append_singleton done a ih =>
        intro before hbefore
        have ih := ih ((List.prefix_append done [a]).trans hdone)
        rcases List.prefix_concat_iff.mp hbefore with rfl | hshorter
        · exact (hstep done a hdone ih).mpr (h done a hdone)
        · exact ih before hshorter
    exact hall done List.prefix_rfl

/-- Two counts, of which the second never goes up by more than the first, agree after a history
exactly when they agree on each of its elements. -/
theorem count_eq_iff {f g : List α → ℕ} {K : List α → α → Prop} {history : List α}
    (hnil : f [] = g [])
    (hstep : ∀ done a, ∃ df dg, f (done ++ [a]) = f done + df ∧ g (done ++ [a]) = g done + dg ∧
      dg ≤ df ∧ (df = dg ↔ K done a)) :
    f history = g history ↔ ∀ done a, done ++ [a] <+: history → K done a := by
  have hall : g history ≤ f history ∧
      (f history = g history ↔ ∀ done a, done ++ [a] <+: history → K done a) := by
    induction history using List.reverseRecOn with
    | nil =>
      refine ⟨Nat.le_of_eq hnil.symm, iff_of_true hnil fun done a h => ?_⟩
      exact absurd (List.prefix_nil.mp h) (by simp)
    | append_singleton done a ih =>
      obtain ⟨df, dg, hf, hg, hle, hkeeps⟩ := hstep done a
      refine ⟨by omega, ?_⟩
      have hsplit : f (done ++ [a]) = g (done ++ [a]) ↔ f done = g done ∧ df = dg := by
        constructor
        · intro h
          omega
        · rintro ⟨hdone, hlast⟩
          omega
      rw [hsplit, ih.2, hkeeps]
      constructor
      · rintro ⟨hbefore, hlast⟩ before a' hinside
        rcases List.prefix_concat_iff.mp hinside with heq | hshorter
        · obtain ⟨rfl, rfl⟩ := List.append_singleton_inj.mp heq
          exact hlast
        · exact hbefore before a' hshorter
      · intro h
        exact ⟨fun before a' hinside => h before a' (hinside.trans (List.prefix_append done [a])),
          h done a List.prefix_rfl⟩
  exact hall.2

end Histories

end Schedule
