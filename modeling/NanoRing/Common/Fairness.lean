import NanoRing.Common.Schedule
import Mathlib.Algebra.Order.BigOperators.Group.Finset
import Mathlib.Algebra.Ring.Periodic
import Mathlib.Data.Prod.Lex
import Mathlib.Data.Set.Defs

/-!
# Fair schedules

An infinite schedule gives turns to the actions of an interleaved system. A turn whose action is
not enabled changes nothing, as when a thread spins. A schedule is fair to a set of actions when
each of them gets a turn again and again. To show that every fair schedule ends, rank the states:
as long as the system is not done some action helps, an action that helps lowers the rank, and a
step of any other action either lowers the rank or leaves every helpful action helpful. A helpful
action may need several turns, when each of them leaves less to do until it lowers the rank. Where
threads each have a rank of their own, their ranks are added up.
-/

namespace Schedule

variable {State Action : Type*} {step : State → Action → Option State}

/-- The state after the first turns of a schedule. -/
def stateAt (step : State → Action → Option State) (start : State) (turns : ℕ → Action) : ℕ → State
  | 0 => start
  | n + 1 => (step (stateAt step start turns n) (turns n)).getD (stateAt step start turns n)

/-- Every action of the set gets a turn again and again. -/
def Fair (actions : Set Action) (turns : ℕ → Action) : Prop :=
  ∀ a ∈ actions, ∀ n, ∃ m, n ≤ m ∧ turns m = a

/-- Nothing is enabled. -/
def Final (step : State → Action → Option State) (s : State) : Prop := ∀ a, step s a = none

variable {start : State} {turns : ℕ → Action}

/-- A schedule that repeats itself is fair to the actions in it. -/
theorem fair_of_periodic {actions : Set Action} {period : ℕ} (hpos : 0 < period)
    (hperiodic : Function.Periodic turns period) (hturn : ∀ a ∈ actions, ∃ m, turns m = a) :
    Fair actions turns := by
  intro a ha n
  obtain ⟨m, hm⟩ := hturn a ha
  have hlater := (hperiodic.nsmul n) m
  refine ⟨m + n * period, ?_, hlater.trans hm⟩
  exact (Nat.le_mul_of_pos_right n hpos).trans (Nat.le_add_left _ _)

theorem stateAt_succ_of_some {n : ℕ} {s' : State}
    (h : step (stateAt step start turns n) (turns n) = some s') :
    stateAt step start turns (n + 1) = s' := by
  rw [stateAt, h, Option.getD_some]

theorem stateAt_succ_of_none {n : ℕ} (h : step (stateAt step start turns n) (turns n) = none) :
    stateAt step start turns (n + 1) = stateAt step start turns n := by
  rw [stateAt, h, Option.getD_none]

/-- The turns that are taken make a run. -/
theorem exists_run_stateAt (step : State → Action → Option State) (start : State)
    (turns : ℕ → Action) (n : ℕ) :
    ∃ taken, run step start taken = some (stateAt step start turns n) := by
  induction n with
  | zero => exact ⟨[], rfl⟩
  | succ n ih =>
    obtain ⟨taken, htaken⟩ := ih
    cases hstep : step (stateAt step start turns n) (turns n) with
    | none => exact ⟨taken, (stateAt_succ_of_none hstep).symm ▸ htaken⟩
    | some s' =>
      refine ⟨taken ++ [turns n], ?_⟩
      rw [stateAt_succ_of_some hstep]
      exact run_snoc_eq_some_iff.mpr ⟨_, htaken, hstep⟩

/-- What every guarded step preserves holds after every turn of a guarded schedule. -/
theorem stateAt_invariant {inv : State → Prop} {guard : State → Action → Prop}
    (hstep : ∀ s a s', inv s → guard s a → step s a = some s' → inv s') (hs : inv start)
    (hguard : ∀ n, guard (stateAt step start turns n) (turns n)) (n : ℕ) :
    inv (stateAt step start turns n) := by
  induction n with
  | zero => exact hs
  | succ n ih =>
    cases htaken : step (stateAt step start turns n) (turns n) with
    | none => exact (stateAt_succ_of_none htaken).symm ▸ ih
    | some s' => exact (stateAt_succ_of_some htaken).symm ▸ hstep _ _ _ ih (hguard n) htaken

/-- After a state in which nothing is enabled a schedule stays there. -/
theorem stateAt_of_final {n m : ℕ} (h : Final step (stateAt step start turns n)) (hle : n ≤ m) :
    stateAt step start turns m = stateAt step start turns n := by
  induction m, hle using Nat.le_induction with
  | base => rfl
  | succ m _ ih => exact (stateAt_succ_of_none (ih ▸ h _)).trans ih

/-- The rank is lower than it was, or an action that helps goes on helping with less left to do. -/
def Nearer {Rank : Type*} [LT Rank] (helps : State → Action → Prop) (rank : State → Rank)
    (left : State → Action → ℕ) (s s' : State) (a : Action) : Prop :=
  rank s' < rank s ∨ rank s' = rank s ∧ helps s' a ∧ left s' a < left s a

/-- A rank of the states that shows that every fair schedule ends, where a helpful action may need
several turns to lower it. -/
structure PatientRanks {Rank : Type*} [LT Rank] (step : State → Action → Option State)
    (actions : Set Action) (inv done : State → Prop) (helps : State → Action → Prop)
    (rank : State → Rank) (left : State → Action → ℕ) : Prop where
  helped : ∀ s, inv s → ¬ done s → ∃ a ∈ actions, helps s a
  lowers : ∀ s a, inv s → helps s a → ∃ s', step s a = some s' ∧ Nearer helps rank left s s' a
  keeps : ∀ s b s', inv s → step s b = some s' →
    rank s' < rank s ∨ rank s' = rank s ∧ ∀ a, helps s a → a ≠ b → helps s' a ∧ left s' a = left s a

/-- A rank of the states that every turn of a helpful action lowers. -/
structure Ranks {Rank : Type*} [LT Rank] (step : State → Action → Option State)
    (actions : Set Action) (inv done : State → Prop) (helps : State → Action → Prop)
    (rank : State → Rank) : Prop where
  helped : ∀ s, inv s → ¬ done s → ∃ a ∈ actions, helps s a
  lowers : ∀ s a, inv s → helps s a → ∃ s', step s a = some s' ∧ rank s' < rank s
  keeps : ∀ s b s', inv s → step s b = some s' →
    rank s' < rank s ∨ rank s' = rank s ∧ ∀ a, helps s a → helps s' a

section Ranking

variable {Rank : Type*} [LT Rank] {actions : Set Action} {inv done : State → Prop}
  {helps : State → Action → Prop} {rank : State → Rank} {left : State → Action → ℕ}

/-- Until something comes nearer, an action that helps goes on helping. -/
theorem PatientRanks.helps_until (h : PatientRanks step actions inv done helps rank left)
    (hinv : ∀ n, inv (stateAt step start turns n)) {n m : ℕ} (hle : n ≤ m) {a : Action}
    (ha : helps (stateAt step start turns n) a) :
    (∃ k, Nearer helps rank left (stateAt step start turns n) (stateAt step start turns k) a) ∨
      rank (stateAt step start turns m) = rank (stateAt step start turns n) ∧
        helps (stateAt step start turns m) a ∧
        left (stateAt step start turns m) a = left (stateAt step start turns n) a := by
  induction m, hle using Nat.le_induction with
  | base => exact .inr ⟨rfl, ha, rfl⟩
  | succ m _ ih =>
    obtain hnearer | ⟨hrank, hhelps, hleft⟩ := ih
    · exact .inl hnearer
    · cases hstep : step (stateAt step start turns m) (turns m) with
      | none => exact .inr ((stateAt_succ_of_none hstep).symm ▸ ⟨hrank, hhelps, hleft⟩)
      | some s' =>
        have hnext := stateAt_succ_of_some hstep
        by_cases hturn : a = turns m
        · -- its own turn lowers the rank or leaves it less to do
          obtain ⟨s'', hown, hnearer⟩ := h.lowers _ a (hinv m) hhelps
          obtain rfl := Option.some.inj (hstep.symm.trans (hturn ▸ hown))
          refine .inl ⟨m + 1, ?_⟩
          rw [Nearer, hnext, ← hrank, ← hleft]
          exact hnearer
        · obtain hlower | ⟨hsame, hkept⟩ := h.keeps _ _ _ (hinv m) hstep
          · exact .inl ⟨m + 1, .inl (by rw [hnext, ← hrank]; exact hlower)⟩
          · obtain ⟨hhelps', hleft'⟩ := hkept a hhelps hturn
            exact .inr ⟨by rw [hnext, hsame, hrank], hnext.symm ▸ hhelps',
              by rw [hnext, hleft', hleft]⟩

/-- Every fair schedule of a ranked system comes to a state in which it is done. -/
theorem PatientRanks.eventually_done [WellFoundedLT Rank]
    (h : PatientRanks step actions inv done helps rank left)
    (hinv : ∀ n, inv (stateAt step start turns n)) (hfair : Fair actions turns) :
    ∃ n, done (stateAt step start turns n) := by
  have hfrom : ∀ r n, rank (stateAt step start turns n) = r →
      ∃ m, done (stateAt step start turns m) := by
    intro r
    induction r using WellFoundedLT.induction with
    | ind r ih =>
      have hpatient : ∀ (a : Action), a ∈ actions → ∀ k n, rank (stateAt step start turns n) = r →
          helps (stateAt step start turns n) a → left (stateAt step start turns n) a = k →
          ∃ m, done (stateAt step start turns m) := by
        intro a hmem k
        induction k using Nat.strong_induction_on with
        | _ k ih' =>
          intro n hr ha hk
          -- after its next turn something has come nearer
          have hnearer : ∃ j, Nearer helps rank left (stateAt step start turns n)
              (stateAt step start turns j) a := by
            obtain ⟨m, hle, hturn⟩ := hfair a hmem n
            obtain hnearer | ⟨hrank, hhelps, hleft⟩ := h.helps_until hinv hle ha
            · exact hnearer
            · obtain ⟨s', hstep, hnearer⟩ := h.lowers _ a (hinv m) hhelps
              refine ⟨m + 1, ?_⟩
              rw [stateAt_succ_of_some (hturn.symm ▸ hstep), Nearer, ← hrank, ← hleft]
              exact hnearer
          obtain ⟨j, hlower | ⟨hsame, hhelps, hless⟩⟩ := hnearer
          · exact ih _ (hr ▸ hlower) j rfl
          · exact ih' _ (hk ▸ hless) j (hsame.trans hr) hhelps rfl
      intro n hr
      by_cases hdone : done (stateAt step start turns n)
      · exact ⟨n, hdone⟩
      obtain ⟨a, hmem, ha⟩ := h.helped _ (hinv n) hdone
      exact hpatient a hmem _ n hr ha rfl
  exact hfrom _ 0 rfl

theorem Ranks.patient (h : Ranks step actions inv done helps rank) :
    PatientRanks step actions inv done helps rank fun _ _ => 0 where
  helped := h.helped
  lowers := fun s a hs ha => by
    obtain ⟨s', hstep, hlower⟩ := h.lowers s a hs ha
    exact ⟨s', hstep, .inl hlower⟩
  keeps := fun s b s' hs hstep =>
    (h.keeps s b s' hs hstep).imp_right fun ⟨hsame, hkept⟩ =>
      ⟨hsame, fun a ha _ => ⟨hkept a ha, rfl⟩⟩

theorem Ranks.eventually_done [WellFoundedLT Rank] (h : Ranks step actions inv done helps rank)
    (hinv : ∀ n, inv (stateAt step start turns n)) (hfair : Fair actions turns) :
    ∃ n, done (stateAt step start turns n) := h.patient.eventually_done hinv hfair

end Ranking

/-- The sum of the ranks of the threads goes down with the rank of one of them. -/
theorem lex_sum_lt {Rank : Type*} [PartialOrder Rank] {leader leader' : Rank} {rank rank' : ℕ → ℕ}
    {n t : ℕ} (hleader : leader' = leader) (ht : t < n) (hother : ∀ u, u ≠ t → rank' u = rank u)
    (hlower : rank' t < rank t) :
    toLex (leader', ∑ u ∈ Finset.range n, rank' u) <
      toLex (leader, ∑ u ∈ Finset.range n, rank u) := by
  refine Prod.Lex.toLex_lt_toLex.mpr (.inr ⟨hleader, Finset.sum_lt_sum (fun u _ => ?_)
    ⟨t, Finset.mem_range.mpr ht, hlower⟩⟩)
  by_cases hne : u = t
  · exact hne ▸ hlower.le
  · exact (hother u hne).le

end Schedule
