import NanoRing.Common.Schedule

/-!
# Simulation of runs

A run of a system of small steps stands for a run of a coarser system. Either each step gives out
the steps of the coarser one, which is then seen through a function of the state; or related states
stay related, when the coarser system takes one step or none. What is known of the coarser states,
their invariant say, may be part of the relation.
-/

namespace Schedule

variable {State Action Coarse CoarseAction : Type*} {step : State → Action → Option State}
  {coarse : Coarse → CoarseAction → Option Coarse} {out : State → Action → List CoarseAction}

/-- Where each guarded step gives out a run of the coarser system, so does the whole run. -/
theorem Guarded.run_outputs {guard : State → Action → Prop} {s t : State} {actions : List Action}
    (hguard : Guarded step guard s actions) (view : State → Coarse)
    (hstep : ∀ s a s', guard s a → step s a = some s' →
      run coarse (view s) (out s a) = some (view s'))
    (h : run step s actions = some t) :
    run coarse (view s) (outputs step out s actions) = some (view t) := by
  induction actions using List.reverseRecOn generalizing t with
  | nil => exact congrArg _ (congrArg view (Option.some.inj h))
  | append_singleton actions a ih =>
    obtain ⟨s', hbefore, hlast⟩ := run_snoc_eq_some_iff.mp h
    have hfirst := ih (hguard.of_prefix (List.prefix_append actions [a])) hbefore
    rw [outputs_snoc hbefore, run_append, hfirst, Option.bind_some]
    exact hstep s' a t (hguard actions a s' List.prefix_rfl hbefore) hlast

/-- Where related states stay related over guarded steps, when the coarser system takes a guarded
step that matches or none, every guarded run stands for a guarded run of the coarser system. -/
theorem Guarded.simulates {R : State → Coarse → Prop} {guard : State → Action → Prop}
    {guard' : Coarse → CoarseAction → Prop}
    (hstep : ∀ s c a s', R s c → guard s a → step s a = some s' →
      R s' c ∨ ∃ b c', guard' c b ∧ coarse c b = some c' ∧ R s' c')
    {s t : State} {c : Coarse} {actions : List Action} (hs : R s c)
    (hguard : Guarded step guard s actions) (h : run step s actions = some t) :
    ∃ taken d, Guarded coarse guard' c taken ∧ run coarse c taken = some d ∧ R t d := by
  induction actions generalizing s c with
  | nil =>
    refine ⟨[], c, fun before b _ hbefore _ => ?_, rfl, Option.some.inj h ▸ hs⟩
    exact absurd (List.prefix_nil.mp hbefore) (by simp)
  | cons a rest ih =>
    obtain ⟨s', hfirst, hrest⟩ := run_cons_eq_some_iff.mp h
    obtain ⟨ha, hguard⟩ := (guarded_cons_iff hfirst).mp hguard
    obtain hhidden | ⟨b, c', hb, hmatch, hs'⟩ := hstep s c a s' hs ha hfirst
    · exact ih hhidden hguard hrest
    · obtain ⟨later, d, hlater, hrun, ht⟩ := ih hs' hguard hrest
      exact ⟨b :: later, d, (guarded_cons_iff hmatch).mpr ⟨hb, hlater⟩,
        run_cons_eq_some_iff.mpr ⟨c', hmatch, hrun⟩, ht⟩

/-- The same for runs and steps without a guard. -/
theorem run_simulates {R : State → Coarse → Prop}
    (hstep : ∀ s c a s', R s c → step s a = some s' →
      R s' c ∨ ∃ b c', coarse c b = some c' ∧ R s' c')
    {s t : State} {c : Coarse} {actions : List Action} (hs : R s c)
    (h : run step s actions = some t) : ∃ taken d, run coarse c taken = some d ∧ R t d := by
  have hfree : Guarded step (fun _ _ => True) s actions := fun _ _ _ _ _ => trivial
  obtain ⟨taken, d, -, hrun, ht⟩ := hfree.simulates
    (fun s c a s' hR _ hfirst => (hstep s c a s' hR hfirst).imp_right
      fun ⟨b, c', hmatch, h'⟩ => ⟨b, c', (trivial : (fun _ _ => True) c b), hmatch, h'⟩) hs h
  exact ⟨taken, d, hrun, ht⟩

end Schedule
