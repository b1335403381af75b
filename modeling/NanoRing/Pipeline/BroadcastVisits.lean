import NanoRing.Pipeline.Broadcast

/-!
# The sequence numbers that a book thread visits

Whatever the producer and the other threads do, a book thread reads the sequence numbers in
order, only those that are published, and leaves its loop after the last one. That no publish
laps it is not needed for this, only for what it reads there. A thread leaves after a load of
the index that follows a load of the set flag, so that index is the last one.
-/

namespace NanoRing

open Schedule

namespace BroadcastRun

variable {orders : List DecodedOrder} {numThreads : ℕ} {s s' : BroadcastRun} {t : ℕ}
  {thread : BookThread}

/-- What a thread knows at its place in the loop. -/
structure Knows (orders : List DecodedOrder) (s : BroadcastRun) (t : ℕ) (thread : BookThread) :
    Prop where
  draining_le : ∀ published, thread.pc = .draining published → published ≤ s.nextOrder
  done : thread.pc = .reloadPublished → s.producerDone = true
  read_all : thread.pc = .exited →
    thread.localSeq = orders.length ∧ s.threadMessageCounts t = thread.localCount

/-- What holds in every state: no thread is ahead of the producer. -/
structure Paced (orders : List DecodedOrder) (numThreads : ℕ) (s : BroadcastRun) : Prop where
  published_eq : s.journal.publishedIndex = s.nextOrder
  next_le : s.nextOrder ≤ orders.length
  next_of_done : s.producerDone = true → s.nextOrder = orders.length
  local_le : ∀ t < numThreads, (s.threads t).localSeq ≤ s.nextOrder
  knows : ∀ t < numThreads, Knows orders s t (s.threads t)

theorem start_paced (orders : List DecodedOrder) (numThreads : ℕ) :
    Paced orders numThreads start where
  published_eq := rfl
  next_le := Nat.zero_le _
  next_of_done := nofun
  local_le := fun _ _ => le_rfl
  knows := fun _ _ => ⟨nofun, nofun, nofun⟩

@[simp] theorem setThread_self (s : BroadcastRun) (t : ℕ) (thread : BookThread) :
    (s.setThread t thread).threads t = thread := Function.update_self _ _ _

theorem setThread_of_ne {t' : ℕ} (h : t' ≠ t) (thread : BookThread) :
    (s.setThread t thread).threads t' = s.threads t' := Function.update_of_ne h _ _

theorem Knows.congr (h : Knows orders s t thread) (hnext : s'.nextOrder = s.nextOrder)
    (hdone : s'.producerDone = s.producerDone)
    (hcount : s'.threadMessageCounts t = s.threadMessageCounts t) : Knows orders s' t thread where
  draining_le := fun published hpc => hnext ▸ h.draining_le published hpc
  done := fun hpc => hdone ▸ h.done hpc
  read_all := fun hpc => hcount ▸ h.read_all hpc

/-! ### Steps of the producer -/

theorem Paced.publish (h : Paced orders numThreads s) (hstep : s.publish orders = some s') :
    Paced orders numThreads s' := by
  unfold BroadcastRun.publish at hstep
  split at hstep
  · rename_i order horder
    obtain rfl := Option.some.inj hstep
    obtain ⟨hlt, -⟩ := List.getElem?_eq_some_iff.mp horder
    refine ⟨rfl, hlt, fun hdone => ?_, fun t ht => (h.local_le t ht).trans (Nat.le_succ _),
      fun t ht => ?_⟩
    · have hall := h.next_of_done hdone
      omega
    · have hknows := h.knows t ht
      exact ⟨fun published hpc => (hknows.draining_le published hpc).trans (Nat.le_succ _),
        hknows.done, hknows.read_all⟩
  · contradiction

theorem Paced.setDone (h : Paced orders numThreads s) (hstep : s.setDone orders = some s') :
    Paced orders numThreads s' := by
  unfold BroadcastRun.setDone at hstep
  split at hstep
  · rename_i hcond
    obtain rfl := Option.some.inj hstep
    refine ⟨h.published_eq, h.next_le, fun _ => hcond.1, h.local_le, fun t ht => ?_⟩
    have hknows := h.knows t ht
    exact ⟨hknows.draining_le, fun _ => rfl, hknows.read_all⟩
  · contradiction

/-! ### Steps of a book thread -/

/-- A thread moves on with what it knows there, reads one order, reports, or leaves its loop. -/
theorem threadStep_cases (h : s.threadStep numThreads t = some s') :
    (∃ pc, s' = s.setThread t { s.threads t with pc := pc } ∧ s.visit t = none ∧ pc ≠ .exited ∧
      (∀ published, pc = .draining published → published = s.journal.publishedIndex) ∧
      (pc = .reloadPublished → s.producerDone = true)) ∨
    (∃ published, (s.threads t).pc = .draining published ∧ (s.threads t).localSeq < published ∧
      s.visit t = some (s.threads t).localSeq ∧ s' = s.setThread t (s.drain numThreads t)) ∨
    ((s.threads t).pc = .report ∧ s.visit t = none ∧
      s' = { s.setThread t { s.threads t with pc := .loadPublished } with
        journal := s.journal.reportConsumerProgress (s.threads t).localSeq }) ∨
    ((s.threads t).pc = .reloadPublished ∧ s.journal.publishedIndex ≤ (s.threads t).localSeq ∧
      s.visit t = none ∧
      s' = { s.setThread t { s.threads t with pc := .exited } with
        threadMessageCounts :=
          Function.update s.threadMessageCounts t (s.threads t).localCount }) := by
  unfold BroadcastRun.threadStep at h
  dsimp only at h
  cases hpc : (s.threads t).pc with
  | loadPublished =>
    simp only [hpc] at h
    split at h
    · exact .inl ⟨.testDone, (Option.some.inj h).symm, by rw [visit, hpc], nofun, nofun, nofun⟩
    · refine .inl ⟨_, (Option.some.inj h).symm, by rw [visit, hpc], nofun, fun published hload => ?_,
        nofun⟩
      cases hload
      rfl
  | testDone =>
    simp only [hpc] at h
    split at h
    · rename_i hdone
      exact .inl ⟨.reloadPublished, (Option.some.inj h).symm, by rw [visit, hpc], nofun, nofun,
        fun _ => hdone⟩
    · exact .inl ⟨.loadPublished, (Option.some.inj h).symm, by rw [visit, hpc], nofun, nofun, nofun⟩
  | reloadPublished =>
    simp only [hpc] at h
    split at h
    · rename_i hall
      exact .inr (.inr (.inr ⟨rfl, hall, by rw [visit, hpc], (Option.some.inj h).symm⟩))
    · exact .inl ⟨.loadPublished, (Option.some.inj h).symm, by rw [visit, hpc], nofun, nofun, nofun⟩
  | draining published =>
    simp only [hpc] at h
    split at h
    · rename_i hlt
      refine .inr (.inl ⟨published, rfl, hlt, ?_, (Option.some.inj h).symm⟩)
      rw [visit, hpc]
      exact if_pos hlt
    · rename_i hge
      refine .inl ⟨.report, (Option.some.inj h).symm, ?_, nofun, nofun, nofun⟩
      rw [visit, hpc]
      exact if_neg hge
  | report =>
    simp only [hpc] at h
    exact .inr (.inr (.inl ⟨rfl, by rw [visit, hpc], (Option.some.inj h).symm⟩))
  | exited =>
    simp only [hpc] at h
    contradiction

/-- A step of one thread keeps the invariant when it keeps what is known of that thread. -/
theorem Paced.setThread (h : Paced orders numThreads s) (hlocal : thread.localSeq ≤ s.nextOrder)
    (hknows : Knows orders s t thread) : Paced orders numThreads (s.setThread t thread) where
  published_eq := h.published_eq
  next_le := h.next_le
  next_of_done := h.next_of_done
  local_le := fun t' ht' => by
    by_cases htt : t' = t
    · subst htt
      rw [setThread_self]
      exact hlocal
    · rw [setThread_of_ne htt]
      exact h.local_le t' ht'
  knows := fun t' ht' => by
    by_cases htt : t' = t
    · subst htt
      rw [setThread_self]
      exact hknows.congr rfl rfl rfl
    · rw [setThread_of_ne htt]
      exact (h.knows t' ht').congr rfl rfl rfl

/-- Moving a thread to another place keeps the invariant when the thread knows enough there. -/
theorem Paced.setPc (h : Paced orders numThreads s) (ht : t < numThreads) {pc : BookThreadPc}
    (hknows : Knows orders s t { s.threads t with pc := pc }) :
    Paced orders numThreads (s.setThread t { s.threads t with pc := pc }) :=
  h.setThread (h.local_le t ht) hknows

/-- A report changes only the smallest number that was read. -/
theorem Paced.reportConsumerProgress (h : Paced orders numThreads s) (consumerSeq : ℕ) :
    Paced orders numThreads { s with journal := s.journal.reportConsumerProgress consumerSeq } := by
  unfold BroadcastJournal.reportConsumerProgress
  split
  · exact ⟨h.published_eq, h.next_le, h.next_of_done, h.local_le,
      fun t ht => (h.knows t ht).congr rfl rfl rfl⟩
  · exact h

/-- A thread that has not left its loop may record its count. -/
theorem Paced.recordCount (h : Paced orders numThreads s) (hpc : (s.threads t).pc ≠ .exited)
    (count : ℕ) :
    Paced orders numThreads
      { s with threadMessageCounts := Function.update s.threadMessageCounts t count } := by
  refine ⟨h.published_eq, h.next_le, h.next_of_done, h.local_le, fun t' ht' => ?_⟩
  have hknows := h.knows t' ht'
  refine ⟨hknows.draining_le, hknows.done, fun hpc' => ?_⟩
  have htt : t' ≠ t := by
    rintro rfl
    exact hpc hpc'
  obtain ⟨hlocal, hcount⟩ := hknows.read_all hpc'
  exact ⟨hlocal, (Function.update_of_ne htt _ _).trans hcount⟩

/-- The order that a thread reads next. -/
def nextRead (s : BroadcastRun) (t : ℕ) : DecodedOrder :=
  s.journal.getPayload journalExponent (s.threads t).localSeq

theorem drain_of_owned (h : getShard numThreads (s.nextRead t).tickerKey = t) :
    s.drain numThreads t =
      ⟨(s.threads t).pc, (s.threads t).localSeq + 1, (s.threads t).localCount + 1,
        (s.threads t).manager.apply (s.nextRead t), (s.threads t).seen ++ [s.nextRead t]⟩ := by
  rw [BroadcastRun.drain]
  exact if_pos h

theorem drain_of_other (h : getShard numThreads (s.nextRead t).tickerKey ≠ t) :
    s.drain numThreads t =
      ⟨(s.threads t).pc, (s.threads t).localSeq + 1, (s.threads t).localCount,
        (s.threads t).manager, (s.threads t).seen ++ [s.nextRead t]⟩ := by
  rw [BroadcastRun.drain]
  exact if_neg h

theorem drain_pc (numThreads : ℕ) (s : BroadcastRun) (t : ℕ) :
    (s.drain numThreads t).pc = (s.threads t).pc := by
  by_cases h : getShard numThreads (s.nextRead t).tickerKey = t
  · rw [drain_of_owned h]
  · rw [drain_of_other h]

theorem drain_localSeq (numThreads : ℕ) (s : BroadcastRun) (t : ℕ) :
    (s.drain numThreads t).localSeq = (s.threads t).localSeq + 1 := by
  by_cases h : getShard numThreads (s.nextRead t).tickerKey = t
  · rw [drain_of_owned h]
  · rw [drain_of_other h]

/-- Reading an order keeps the thread at its place. -/
theorem Paced.drain (h : Paced orders numThreads s) (ht : t < numThreads) {published : ℕ}
    (hpc : (s.threads t).pc = .draining published) (hlt : (s.threads t).localSeq < published) :
    Paced orders numThreads (s.setThread t (s.drain numThreads t)) := by
  have hpublished := (h.knows t ht).draining_le published hpc
  have hdrained := (drain_pc numThreads s t).trans hpc
  refine h.setThread ?_ ⟨fun published' hpc' => ?_, fun hpc' => ?_, fun hpc' => ?_⟩
  · rw [drain_localSeq]
    exact hlt.trans_le hpublished
  · obtain rfl := BookThreadPc.draining.inj (hdrained.symm.trans hpc')
    exact hpublished
  · cases hdrained.symm.trans hpc'
  · cases hdrained.symm.trans hpc'

/-- A thread that finds no new order after the flag was set has read all orders. -/
theorem Paced.exit (h : Paced orders numThreads s) (ht : t < numThreads)
    (hpc : (s.threads t).pc = .reloadPublished)
    (hall : s.journal.publishedIndex ≤ (s.threads t).localSeq) :
    Paced orders numThreads
      { s.setThread t { s.threads t with pc := .exited } with
        threadMessageCounts :=
          Function.update s.threadMessageCounts t (s.threads t).localCount } := by
  have hfinal : (s.threads t).localSeq = orders.length := by
    have hnext := h.next_of_done ((h.knows t ht).done hpc)
    have hlocal := h.local_le t ht
    rw [h.published_eq] at hall
    omega
  have hinside : (s.threads t).pc ≠ .exited := by
    rw [hpc]
    exact nofun
  have hrecorded := h.recordCount hinside (s.threads t).localCount
  exact hrecorded.setPc ht ⟨nofun, nofun, fun _ => ⟨hfinal, Function.update_self _ _ _⟩⟩

theorem Paced.threadStep (h : Paced orders numThreads s) (ht : t < numThreads)
    (hstep : s.threadStep numThreads t = some s') : Paced orders numThreads s' := by
  obtain ⟨pc, rfl, -, hinside, hpublished, hdone⟩ | ⟨published, hpc, hlt, -, rfl⟩ | ⟨-, -, rfl⟩ |
    ⟨hpc, hall, -, rfl⟩ := threadStep_cases hstep
  · refine h.setPc ht ⟨fun published hload => ?_, hdone, fun hexit => absurd hexit hinside⟩
    rw [hpublished published hload]
    exact h.published_eq.le
  · exact h.drain ht hpc hlt
  · exact (h.reportConsumerProgress _).setPc ht ⟨nofun, nofun, nofun⟩
  · exact h.exit ht hpc hall

/-- Every step keeps the invariant. -/
theorem Paced.step (h : Paced orders numThreads s) {a : BroadcastAction}
    (hstep : s.step orders numThreads a = some s') : Paced orders numThreads s' := by
  cases a with
  | publish => exact h.publish hstep
  | setDone => exact h.setDone hstep
  | thread t =>
    obtain ⟨ht, hthread⟩ := Option.ite_none_right_eq_some.mp hstep
    exact h.threadStep ht hthread

/-! ### Visits -/

/-- A thread that reads a sequence number is one further after it, and otherwise where it was. -/
theorem localSeq_threadStep (h : s.threadStep numThreads t = some s') :
    List.range (s'.threads t).localSeq =
      List.range (s.threads t).localSeq ++ (s.visit t).toList := by
  obtain ⟨pc, rfl, hvisit, -⟩ | ⟨published, -, -, hvisit, rfl⟩ | ⟨-, hvisit, rfl⟩ |
    ⟨-, -, hvisit, rfl⟩ := threadStep_cases h
  · rw [hvisit, setThread_self]
    exact (List.append_nil _).symm
  · rw [hvisit, setThread_self, drain_localSeq, List.range_succ]
    rfl
  · rw [hvisit]
    exact (congrArg (fun thread : BookThread => List.range thread.localSeq)
      (setThread_self _ _ _)).trans (List.append_nil _).symm
  · rw [hvisit]
    exact (congrArg (fun thread : BookThread => List.range thread.localSeq)
      (setThread_self _ _ _)).trans (List.append_nil _).symm

/-- A thread is where it was after a step of the producer or of another thread. -/
theorem threads_of_other {a : BroadcastAction} (h : s.step orders numThreads a = some s')
    (ha : a ≠ .thread t) : s'.threads t = s.threads t := by
  cases a with
  | publish =>
    rw [BroadcastRun.step, BroadcastRun.publish] at h
    split at h
    · exact Option.some.inj h ▸ rfl
    · contradiction
  | setDone =>
    obtain ⟨-, hset⟩ := Option.ite_none_right_eq_some.mp h
    exact Option.some.inj hset ▸ rfl
  | thread t' =>
    have htt : t ≠ t' := fun heq => ha (congrArg _ heq.symm)
    obtain ⟨-, hthread⟩ := Option.ite_none_right_eq_some.mp h
    obtain ⟨pc, rfl, -⟩ | ⟨published, -, -, -, rfl⟩ | ⟨-, -, rfl⟩ | ⟨-, -, -, rfl⟩ :=
      threadStep_cases hthread
    all_goals exact setThread_of_ne htt _

/-- The sequence numbers that book thread `t` reads in a run, in order. -/
def visits (orders : List DecodedOrder) (numThreads t : ℕ) (actions : List BroadcastAction) :
    List ℕ :=
  outputs (BroadcastRun.step orders numThreads) (visitIn t) start actions

/-- In every interleaving a book thread reads the sequence numbers in order without a gap or a
repeat, only published ones, and when it has left its loop it has read all of them. -/
theorem visits_in_order {t : ℕ} (ht : t < numThreads) {actions : List BroadcastAction}
    (hrun : run (BroadcastRun.step orders numThreads) start actions = some s) :
    visits orders numThreads t actions = List.range (s.threads t).localSeq ∧
      (∀ i, s.visit t = some i → i < s.journal.publishedIndex) ∧
      ((s.threads t).pc = .exited → (s.threads t).localSeq = orders.length) := by
  have hpaced : Paced orders numThreads s :=
    run_invariant (fun _ _ _ ih hstep => ih.step hstep) (start_paced orders numThreads) hrun
  refine ⟨?_, fun i hvisit => ?_, fun hpc => ((hpaced.knows t ht).read_all hpc).1⟩
  · refine (record_eq_outputs (fun s => List.range (s.threads t).localSeq) (fun s a s' hstep => ?_)
      hrun).symm
    by_cases ha : a = .thread t
    · obtain ⟨-, hthread⟩ := Option.ite_none_right_eq_some.mp (ha ▸ hstep)
      rw [visitIn, if_pos ha]
      exact localSeq_threadStep hthread
    · rw [visitIn, if_neg ha, List.append_nil, threads_of_other hstep ha]
  · unfold BroadcastRun.visit at hvisit
    split at hvisit
    · rename_i published hpc
      obtain ⟨hlt, hi⟩ := Option.ite_none_right_eq_some.mp hvisit
      rw [← Option.some.inj hi, hpaced.published_eq]
      exact hlt.trans_le ((hpaced.knows t ht).draining_le published hpc)
    · contradiction

/-- The order is published and the flag set after the thread found nothing; it reads the order. -/
theorem late_publish_visited :
    ∃ s, run (BroadcastRun.step [⟨.add, 1, 5, 100, 10, sideBuy, 0⟩] 1) start
        (.thread 0 :: .publish :: .setDone :: List.replicate 9 (.thread 0)) = some s ∧
      visits [⟨.add, 1, 5, 100, 10, sideBuy, 0⟩] 1 0
        (.thread 0 :: .publish :: .setDone :: List.replicate 9 (.thread 0)) = List.range 1 := by
  have hends : (run (BroadcastRun.step [⟨.add, 1, 5, 100, 10, sideBuy, 0⟩] 1) start
      (.thread 0 :: .publish :: .setDone :: List.replicate 9 (.thread 0))).any
        (fun s => (s.threads 0).pc = .exited) = true := by decide +kernel
  obtain ⟨s, hrun, hpc⟩ := (Option.any_eq_true _ _).mp hends
  obtain ⟨hvisits, -, hall⟩ := visits_in_order Nat.one_pos hrun
  exact ⟨s, hrun, hvisits.trans (congrArg _ (hall (of_decide_eq_true hpc)))⟩

end BroadcastRun

end NanoRing
