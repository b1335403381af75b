import NanoRing.Pipeline.Broadcast

/-!
# The scaling benchmark of the journal

`experiment_broadcast_scaling`: one producer publishes every order and then sets `done`, and
consumers read the journal until they have caught up and find `done` set. Every publish, every
load of the published index or of the flag and every read is one step. The payloads that the
consumers read are not used. Unlike the book threads, a consumer leaves without loading the
index again, so it leaves too early exactly when an order is published between its two loads.
-/

namespace NanoRing

open Schedule

/-- Where a consumer is in its loop, with the index that it has loaded. -/
inductive ScalingPc
  | loadPublished
  | testDone (pub : ℕ)
  | draining (pub : ℕ)
  | exited
deriving DecidableEq

structure ScalingConsumer where
  pc : ScalingPc
  localSeq : ℕ

structure ScalingRun where
  journal : BroadcastJournal DecodedOrder
  nextOrder : ℕ
  done : Bool
  consumers : ℕ → ScalingConsumer
  consumerReads : ℕ → ℕ

inductive ScalingAction
  | publish
  | setDone
  | consumer (c : ℕ)
deriving DecidableEq

namespace ScalingRun

def start : ScalingRun where
  journal := .empty
  nextOrder := 0
  done := false
  consumers := fun _ => ⟨.loadPublished, 0⟩
  consumerReads := fun _ => 0

/-- The state with one consumer replaced. -/
def setConsumer (s : ScalingRun) (c : ℕ) (consumer : ScalingConsumer) : ScalingRun :=
  { s with consumers := Function.update s.consumers c consumer }

/-- `journal.publish(i, data.orders[i])`. -/
def publish (orders : List DecodedOrder) (s : ScalingRun) : Option ScalingRun :=
  match orders[s.nextOrder]? with
  | some order =>
    some { s with
      journal := s.journal.publish journalExponent s.nextOrder order
      nextOrder := s.nextOrder + 1 }
  | none => none

/-- `done.store(true)`, after the loop over the orders. -/
def setDone (orders : List DecodedOrder) (s : ScalingRun) : Option ScalingRun :=
  if s.nextOrder = orders.length ∧ s.done = false then some { s with done := true } else none

/-- The next step of consumer `c`; leaving the loop stores the number of reads. -/
def consumerStep (s : ScalingRun) (c : ℕ) : Option ScalingRun :=
  let consumer := s.consumers c
  match consumer.pc with
  | .loadPublished =>
    let pub := s.journal.getPublishedIndex
    if consumer.localSeq ≥ pub then some (s.setConsumer c { consumer with pc := .testDone pub })
    else some (s.setConsumer c { consumer with pc := .draining pub })
  | .testDone _ =>
    if s.done then
      some { s.setConsumer c { consumer with pc := .exited } with
        consumerReads := Function.update s.consumerReads c consumer.localSeq }
    else some (s.setConsumer c { consumer with pc := .loadPublished })
  | .draining pub =>
    if consumer.localSeq < pub then
      some (s.setConsumer c { consumer with localSeq := consumer.localSeq + 1 })
    else some (s.setConsumer c { consumer with pc := .loadPublished })
  | .exited => none

/-- One step of the benchmark with consumers below `numConsumers`. -/
def step (orders : List DecodedOrder) (numConsumers : ℕ) (s : ScalingRun) :
    ScalingAction → Option ScalingRun
  | .publish => s.publish orders
  | .setDone => s.setDone orders
  | .consumer c => if c < numConsumers then s.consumerStep c else none

/-- Consumers that have left their loop have read everything, and once all have, the reads add up. -/
structure ReadsAll (orders : List DecodedOrder) (numConsumers : ℕ) (s : ScalingRun) : Prop where
  localSeq : ∀ c < numConsumers, (s.consumers c).pc = .exited →
    (s.consumers c).localSeq = orders.length
  total : (∀ c < numConsumers, (s.consumers c).pc = .exited) →
    ∑ c ∈ Finset.range numConsumers, s.consumerReads c = orders.length * numConsumers

/-- A consumer that finds the flag set has loaded the index that is still the published one. -/
def IndexIsCurrent (numConsumers : ℕ) (s : ScalingRun) (a : ScalingAction) : Prop :=
  ∀ c < numConsumers, a = .consumer c → ∀ pub, (s.consumers c).pc = .testDone pub →
    s.done = true → pub = s.journal.publishedIndex

/-! ## What holds in every run -/

/-- What a consumer knows at its place in the loop. -/
structure Knows (s : ScalingRun) (c : ℕ) (consumer : ScalingConsumer) : Prop where
  local_le : consumer.localSeq ≤ s.nextOrder
  caught_up : ∀ pub, consumer.pc = .testDone pub → consumer.localSeq = pub
  draining_le : ∀ pub, consumer.pc = .draining pub → pub ≤ s.nextOrder
  reads_eq : consumer.pc = .exited → s.consumerReads c = consumer.localSeq

/-- No consumer is ahead of the producer. -/
structure Paced (orders : List DecodedOrder) (numConsumers : ℕ) (s : ScalingRun) : Prop where
  published_eq : s.journal.publishedIndex = s.nextOrder
  next_le : s.nextOrder ≤ orders.length
  next_of_done : s.done = true → s.nextOrder = orders.length
  knows : ∀ c < numConsumers, Knows s c (s.consumers c)

variable {orders : List DecodedOrder} {numConsumers : ℕ} {s s' : ScalingRun} {c : ℕ}
  {consumer : ScalingConsumer}

theorem setConsumer_self (s : ScalingRun) (c : ℕ) (consumer : ScalingConsumer) :
    (s.setConsumer c consumer).consumers c = consumer := Function.update_self _ _ _

theorem setConsumer_of_ne (s : ScalingRun) {c c' : ℕ} (hne : c' ≠ c) (consumer : ScalingConsumer) :
    (s.setConsumer c consumer).consumers c' = s.consumers c' := Function.update_of_ne hne _ _

theorem start_paced (orders : List DecodedOrder) (numConsumers : ℕ) :
    Paced orders numConsumers start where
  published_eq := rfl
  next_le := Nat.zero_le _
  next_of_done := nofun
  knows := fun _ _ => ⟨le_rfl, nofun, nofun, nofun⟩

theorem Knows.congr (h : Knows s c consumer) (hnext : s.nextOrder ≤ s'.nextOrder)
    (hreads : s'.consumerReads c = s.consumerReads c) : Knows s' c consumer where
  local_le := h.local_le.trans hnext
  caught_up := h.caught_up
  draining_le := fun pub hpc => (h.draining_le pub hpc).trans hnext
  reads_eq := fun hpc => hreads.trans (h.reads_eq hpc)

theorem Paced.publish (h : Paced orders numConsumers s) (hstep : s.publish orders = some s') :
    Paced orders numConsumers s' := by
  unfold ScalingRun.publish at hstep
  split at hstep
  · rename_i order horder
    obtain rfl := Option.some.inj hstep
    obtain ⟨hlt, -⟩ := List.getElem?_eq_some_iff.mp horder
    refine ⟨rfl, hlt, fun hdone => ?_, fun c hc => (h.knows c hc).congr (Nat.le_succ _) rfl⟩
    have hall := h.next_of_done hdone
    omega
  · contradiction

theorem Paced.setDone (h : Paced orders numConsumers s) (hstep : s.setDone orders = some s') :
    Paced orders numConsumers s' := by
  unfold ScalingRun.setDone at hstep
  split at hstep
  · rename_i hcond
    obtain rfl := Option.some.inj hstep
    exact ⟨h.published_eq, h.next_le, fun _ => hcond.1, fun c hc => (h.knows c hc).congr le_rfl rfl⟩
  · contradiction

/-- The steps of a consumer, each with what it has found. -/
inductive Moves (s : ScalingRun) (c : ℕ) : ScalingRun → Prop
  | caughtUp (hpc : (s.consumers c).pc = .loadPublished)
      (hall : s.journal.publishedIndex ≤ (s.consumers c).localSeq) :
      Moves s c (s.setConsumer c ⟨.testDone s.journal.publishedIndex, (s.consumers c).localSeq⟩)
  | behind (hpc : (s.consumers c).pc = .loadPublished) :
      Moves s c (s.setConsumer c ⟨.draining s.journal.publishedIndex, (s.consumers c).localSeq⟩)
  | leave (pub : ℕ) (hpc : (s.consumers c).pc = .testDone pub) (hdone : s.done = true) :
      Moves s c { s.setConsumer c ⟨.exited, (s.consumers c).localSeq⟩ with
        consumerReads := Function.update s.consumerReads c (s.consumers c).localSeq }
  | again : Moves s c (s.setConsumer c ⟨.loadPublished, (s.consumers c).localSeq⟩)
  | read (pub : ℕ) (hpc : (s.consumers c).pc = .draining pub)
      (hlt : (s.consumers c).localSeq < pub) :
      Moves s c (s.setConsumer c ⟨.draining pub, (s.consumers c).localSeq + 1⟩)

theorem moves_of_consumerStep (h : s.consumerStep c = some s') : Moves s c s' := by
  unfold ScalingRun.consumerStep at h
  dsimp only at h
  cases hpc : (s.consumers c).pc with
  | loadPublished =>
    simp only [hpc] at h
    split at h
    · rename_i hall
      exact Option.some.inj h ▸ .caughtUp hpc hall
    · exact Option.some.inj h ▸ .behind hpc
  | testDone pub =>
    simp only [hpc] at h
    split at h
    · rename_i hdone
      exact Option.some.inj h ▸ .leave pub hpc hdone
    · exact Option.some.inj h ▸ .again
  | draining pub =>
    simp only [hpc] at h
    split at h
    · rename_i hlt
      exact Option.some.inj h ▸ .read pub hpc hlt
    · exact Option.some.inj h ▸ .again
  | exited =>
    simp only [hpc] at h
    contradiction

/-- A step of one consumer leaves what the others know. -/
theorem Paced.setConsumer (h : Paced orders numConsumers s) (reads : ℕ → ℕ)
    (hreads : ∀ c', c' ≠ c → reads c' = s.consumerReads c')
    (hconsumer : Knows { s with consumerReads := reads } c consumer) :
    Paced orders numConsumers { s.setConsumer c consumer with consumerReads := reads } where
  published_eq := h.published_eq
  next_le := h.next_le
  next_of_done := h.next_of_done
  knows := fun c' hc' => by
    by_cases heq : c' = c
    · subst heq
      exact (s.setConsumer_self c' consumer).symm ▸ hconsumer.congr le_rfl rfl
    · exact (s.setConsumer_of_ne heq consumer).symm ▸ (h.knows c' hc').congr le_rfl (hreads c' heq)

theorem Paced.moves (h : Paced orders numConsumers s) (hc : c < numConsumers)
    (hmoves : Moves s c s') : Paced orders numConsumers s' := by
  have hknows := h.knows c hc
  have hlocal := hknows.local_le
  have hpublished := h.published_eq
  cases hmoves with
  | caughtUp hpc hall =>
    refine h.setConsumer s.consumerReads (fun _ _ => rfl) ⟨hlocal, fun pub hpub => ?_, nofun, nofun⟩
    cases hpub
    exact le_antisymm (hpublished ▸ hlocal) hall
  | behind hpc =>
    refine h.setConsumer s.consumerReads (fun _ _ => rfl) ⟨hlocal, nofun, fun pub hpub => ?_, nofun⟩
    cases hpub
    exact hpublished.le
  | leave pub hpc hdone =>
    exact h.setConsumer _ (fun c' hc' => Function.update_of_ne hc' _ _)
      ⟨hlocal, nofun, nofun, fun _ => Function.update_self _ _ _⟩
  | again => exact h.setConsumer s.consumerReads (fun _ _ => rfl) ⟨hlocal, nofun, nofun, nofun⟩
  | read pub hpc hlt =>
    have hle := hknows.draining_le pub hpc
    refine h.setConsumer s.consumerReads (fun _ _ => rfl)
      ⟨by change (s.consumers c).localSeq + 1 ≤ s.nextOrder; omega, nofun, fun pub' hpub => ?_, nofun⟩
    cases hpub
    exact hle

theorem Paced.step (h : Paced orders numConsumers s) {a : ScalingAction}
    (hstep : s.step orders numConsumers a = some s') : Paced orders numConsumers s' := by
  cases a with
  | publish => exact h.publish hstep
  | setDone => exact h.setDone hstep
  | consumer c =>
    obtain ⟨hc, hmove⟩ := Option.ite_none_right_eq_some.mp hstep
    exact h.moves hc (moves_of_consumerStep hmove)

theorem paced_of_run {actions : List ScalingAction}
    (hrun : run (ScalingRun.step orders numConsumers) start actions = some s) :
    Paced orders numConsumers s :=
  run_invariant (fun _ _ _ h hstep => Paced.step h hstep) (start_paced orders numConsumers) hrun

/-! ## Leaving the loop -/

/-- Consumers that have left their loop have read everything. -/
def ExitedReadAll (orders : List DecodedOrder) (numConsumers : ℕ) (s : ScalingRun) : Prop :=
  ∀ c < numConsumers, (s.consumers c).pc = .exited → (s.consumers c).localSeq = orders.length

/-- What every consumer that has left has read is what it has stored. -/
theorem Paced.readsAll (h : Paced orders numConsumers s) (hexited : ExitedReadAll orders numConsumers s) :
    ReadsAll orders numConsumers s where
  localSeq := hexited
  total := by
    intro hall
    have hreads : ∀ c ∈ Finset.range numConsumers, s.consumerReads c = orders.length := by
      intro c hc
      have hc := Finset.mem_range.mp hc
      rw [(h.knows c hc).reads_eq (hall c hc), hexited c hc (hall c hc)]
    rw [Finset.sum_const_nat hreads, Finset.card_range, Nat.mul_comm]

/-- A step lets at most its own consumer leave, after a load of the flag that found it set. -/
theorem exited_of_moves (h : Moves s c s') {c' : ℕ} (hexited : (s'.consumers c').pc = .exited) :
    (s'.consumers c').localSeq = (s.consumers c').localSeq ∧
      ((s.consumers c').pc = .exited ∨
        c' = c ∧ s.done = true ∧ ∃ pub, (s.consumers c).pc = .testDone pub) := by
  by_cases heq : c' = c
  · subst heq
    cases h with
    | leave pub hpc hdone =>
      refine ⟨?_, .inr ⟨rfl, hdone, pub, hpc⟩⟩
      change ((s.setConsumer c' _).consumers c').localSeq = _
      rw [setConsumer_self]
    | caughtUp | behind | again | read =>
      rw [setConsumer_self] at hexited
      contradiction
  · have hother : s'.consumers c' = s.consumers c' := by
      cases h <;> exact s.setConsumer_of_ne heq _
    rw [hother] at hexited ⊢
    exact ⟨rfl, .inl hexited⟩

theorem publish_consumers (hstep : s.publish orders = some s') : s'.consumers = s.consumers := by
  unfold ScalingRun.publish at hstep
  split at hstep
  · rw [← Option.some.inj hstep]
  · contradiction

/-- A step whose consumer has loaded the current index lets it leave with everything read. -/
theorem ExitedReadAll.step (hpaced : Paced orders numConsumers s)
    (h : ExitedReadAll orders numConsumers s) {a : ScalingAction}
    (hcurrent : IndexIsCurrent numConsumers s a)
    (hstep : s.step orders numConsumers a = some s') : ExitedReadAll orders numConsumers s' := by
  cases a with
  | publish =>
    rw [ExitedReadAll, publish_consumers hstep]
    exact h
  | setDone =>
    obtain rfl := Option.some.inj (Option.ite_none_right_eq_some.mp hstep).2
    exact h
  | consumer c =>
    obtain ⟨hc, hmove⟩ := Option.ite_none_right_eq_some.mp hstep
    intro c' hc' hexited
    obtain ⟨hlocal, hbefore | ⟨rfl, hdone, pub, hpc⟩⟩ :=
      exited_of_moves (moves_of_consumerStep hmove) hexited
    · rw [hlocal, h c' hc' hbefore]
    · have hpub := hcurrent c' hc' rfl pub hpc hdone
      rw [hlocal, (hpaced.knows c' hc').caught_up pub hpc, hpub, hpaced.published_eq,
        hpaced.next_of_done hdone]

/-- Consumers read everything in every state of a run exactly when every one that finds the flag
set in it has loaded an index that is still the published one. -/
theorem readsAll_iff_indexIsCurrent (orders : List DecodedOrder) (numConsumers : ℕ)
    (actions : List ScalingAction) :
    (∀ before s, before <+: actions →
      run (ScalingRun.step orders numConsumers) start before = some s →
      ReadsAll orders numConsumers s) ↔
    Guarded (ScalingRun.step orders numConsumers) (IndexIsCurrent numConsumers) start actions := by
  constructor
  · intro hreads before a s hbefore hrun c hc ha pub hpc hdone
    subst ha
    have hpaced := paced_of_run hrun
    have hleave : s.step orders numConsumers (.consumer c) =
        some { s.setConsumer c ⟨.exited, (s.consumers c).localSeq⟩ with
          consumerReads := Function.update s.consumerReads c (s.consumers c).localSeq } := by
      rw [ScalingRun.step, if_pos hc, ScalingRun.consumerStep]
      simp only [hpc, hdone, if_true]
    have hafter := (hreads _ _ hbefore (run_snoc_eq_some_iff.mpr ⟨s, hrun, hleave⟩)).localSeq c hc
    rw [setConsumer_self] at hafter
    rw [← (hpaced.knows c hc).caught_up pub hpc, hafter rfl, hpaced.published_eq,
      hpaced.next_of_done hdone]
  · intro hguard before s hbefore hrun
    have hstart : ExitedReadAll orders numConsumers start := nofun
    have hkept : ∀ s a s', Paced orders numConsumers s ∧ ExitedReadAll orders numConsumers s →
        IndexIsCurrent numConsumers s a → s.step orders numConsumers a = some s' →
        Paced orders numConsumers s' ∧ ExitedReadAll orders numConsumers s' :=
      fun _ _ _ h hcurrent hstep => ⟨h.1.step hstep, h.2.step h.1 hcurrent hstep⟩
    obtain ⟨hpaced, hexited⟩ := guarded_invariant hkept ⟨start_paced orders numConsumers, hstart⟩
      (hguard.of_prefix hbefore) hrun
    exact hpaced.readsAll hexited

/-- One consumer loads the index before the only order is published and the flag after. -/
def earlyExit : List ScalingAction := [.consumer 0, .publish, .setDone, .consumer 0]

/-- It leaves without having read the order. -/
theorem earlyExit_not_readsAll :
    ¬ ∀ before s, before <+: earlyExit →
      run (ScalingRun.step [⟨.add, 1, 7, 100, 10, sideBuy, 0⟩] 1) start before = some s →
      ReadsAll [⟨.add, 1, 7, 100, 10, sideBuy, 0⟩] 1 s := by
  have hleft : (run (ScalingRun.step [⟨.add, 1, 7, 100, 10, sideBuy, 0⟩] 1) start earlyExit).map
      (fun s => ((s.consumers 0).pc, (s.consumers 0).localSeq)) = some (.exited, 0) := by decide
  intro hreads
  obtain ⟨s, hrun, hs⟩ := Option.map_eq_some_iff.mp hleft
  obtain ⟨hpc, hlocal⟩ := Prod.mk.injEq _ _ _ _ ▸ hs
  have hread := (hreads earlyExit s List.prefix_rfl hrun).localSeq 0 (by decide) hpc
  rw [hlocal] at hread
  contradiction

end ScalingRun

end NanoRing
