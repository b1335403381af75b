import NanoRing.Pipeline.BroadcastVisits

/-!
# The invariant of the broadcast pipeline

As long as no publish laps a book thread, the journal holds every published order that a
thread has not read. The steps of the producer extend that window and the steps of a thread
shorten it.
-/

namespace NanoRing

namespace BroadcastRun

section Invariant

variable {orders : List DecodedOrder} {numThreads : ℕ} {s s' : BroadcastRun} {t : ℕ}
  {thread : BookThread}

/-- What a thread has made of the orders that it has read; the others are still in the journal. -/
structure Reads (orders : List DecodedOrder) (numThreads : ℕ) (s : BroadcastRun) (t : ℕ)
    (thread : BookThread) : Prop where
  local_le : thread.localSeq ≤ s.nextOrder
  unread : s.journal.Window journalExponent (fun i => orders.getD i default) thread.localSeq
    s.nextOrder
  seen : thread.seen = orders.take thread.localSeq
  manager : thread.manager = ShardedBookManager.empty.applyAll (shardOrders numThreads thread.seen t)
  localCount : thread.localCount = (shardOrders numThreads thread.seen t).length

/-- What holds in every state of a run in which no publish laps a thread. -/
structure Inv (orders : List DecodedOrder) (numThreads : ℕ) (s : BroadcastRun) : Prop where
  published_eq : s.journal.publishedIndex = s.nextOrder
  next_le : s.nextOrder ≤ orders.length
  next_of_done : s.producerDone = true → s.nextOrder = orders.length
  reads : ∀ t < numThreads, Reads orders numThreads s t (s.threads t)
  knows : ∀ t < numThreads, Knows orders s t (s.threads t)

theorem Inv.paced (h : Inv orders numThreads s) : Paced orders numThreads s :=
  ⟨h.published_eq, h.next_le, h.next_of_done, fun t ht => (h.reads t ht).local_le, h.knows⟩

/-- What every state is known to have, with what the threads have read. -/
theorem Paced.inv (h : Paced orders numThreads s)
    (hreads : ∀ t < numThreads, Reads orders numThreads s t (s.threads t)) :
    Inv orders numThreads s :=
  ⟨h.published_eq, h.next_le, h.next_of_done, hreads, h.knows⟩

theorem start_inv (orders : List DecodedOrder) (numThreads : ℕ) : Inv orders numThreads start :=
  (start_paced orders numThreads).inv fun _ _ =>
    ⟨le_rfl, RingWindow.holds_of_le le_rfl, rfl, rfl, rfl⟩

/-- Only the slots and the number of published orders matter to what a thread reads. -/
theorem Reads.congr (h : Reads orders numThreads s t thread)
    (hslots : s'.journal.slots = s.journal.slots) (hnext : s'.nextOrder = s.nextOrder) :
    Reads orders numThreads s' t thread where
  local_le := hnext ▸ h.local_le
  unread := by
    rw [BroadcastJournal.Window, hslots, hnext]
    exact h.unread
  seen := h.seen
  manager := h.manager
  localCount := h.localCount

/-- A publish that does not lap a thread leaves what the thread has not read in the journal. -/
theorem Reads.publish (h : Reads orders numThreads s t thread) {order : DecodedOrder}
    (horder : orders[s.nextOrder]? = some order)
    (hroom : s.nextOrder < thread.localSeq + 2 ^ journalExponent) :
    Reads orders numThreads
      { s with
        journal := s.journal.publish journalExponent s.nextOrder order
        nextOrder := s.nextOrder + 1 } t thread := by
  have hitem : orders.getD s.nextOrder default = order := by
    rw [List.getD_eq_getElem?_getD, horder, Option.getD_some]
  refine ⟨h.local_le.trans (Nat.le_succ _), ?_, h.seen, h.manager, h.localCount⟩
  have hcopied := h.unread.copyItem hroom
  rw [hitem] at hcopied
  exact hcopied

theorem drain_seen (numThreads : ℕ) (s : BroadcastRun) (t : ℕ) :
    (s.drain numThreads t).seen = (s.threads t).seen ++ [s.nextRead t] := by
  by_cases h : getShard numThreads (s.nextRead t).tickerKey = t
  · rw [drain_of_owned h]
  · rw [drain_of_other h]

/-- A thread that drains reads the next order, and applies it if its shard owns it. -/
theorem Reads.drain (h : Reads orders numThreads s t (s.threads t))
    (hnext : s.nextOrder ≤ orders.length) (hlt : (s.threads t).localSeq < s.nextOrder) :
    Reads orders numThreads s t (s.drain numThreads t) := by
  have hitem : s.nextRead t = orders.getD (s.threads t).localSeq default :=
    h.unread.getPayload_eq le_rfl hlt
  have hseen : (s.threads t).seen ++ [s.nextRead t] = orders.take ((s.threads t).localSeq + 1) := by
    rw [List.take_add_one, ← h.seen, hitem, List.getD_eq_getElem?_getD,
      List.getElem?_eq_getElem (hlt.trans_le hnext), Option.getD_some, Option.toList_some]
  have hunread := h.unread.mono (Nat.le_succ _) le_rfl
  by_cases howned : getShard numThreads (s.nextRead t).tickerKey = t
  · rw [drain_of_owned howned]
    refine ⟨hlt, hunread, hseen, ?_, ?_⟩
    · rw [shardOrders_snoc, if_pos howned, ShardedBookManager.applyAll_snoc, ← h.manager]
    · rw [shardOrders_snoc, if_pos howned, List.length_append, List.length_singleton, h.localCount]
  · rw [drain_of_other howned]
    refine ⟨hlt, hunread, hseen, ?_, ?_⟩
    · rw [shardOrders_snoc, if_neg howned]
      exact h.manager
    · rw [shardOrders_snoc, if_neg howned]
      exact h.localCount

/-- A thread that moves to another place has read what it had read. -/
theorem Reads.setPc (h : Reads orders numThreads s t thread) (pc : BookThreadPc) :
    Reads orders numThreads s t { thread with pc := pc } :=
  ⟨h.local_le, h.unread, h.seen, h.manager, h.localCount⟩

theorem reportConsumerProgress_slots (journal : BroadcastJournal DecodedOrder) (consumerSeq : ℕ) :
    (journal.reportConsumerProgress consumerSeq).slots = journal.slots := by
  unfold BroadcastJournal.reportConsumerProgress
  split
  · rfl
  · rfl

/-- A thread's step leaves what it has read, or adds the order that it reads. -/
theorem Inv.reads_threadStep (h : Inv orders numThreads s) (ht : t < numThreads)
    (hstep : s.threadStep numThreads t = some s') :
    Reads orders numThreads s' t (s'.threads t) := by
  have hreads := h.reads t ht
  obtain ⟨pc, rfl, -⟩ | ⟨published, hpc, hlt, -, rfl⟩ | ⟨-, -, rfl⟩ | ⟨-, -, -, rfl⟩ :=
    threadStep_cases hstep
  · rw [setThread_self]
    exact (hreads.setPc pc).congr rfl rfl
  · have hpublished := (h.knows t ht).draining_le published hpc
    rw [setThread_self]
    exact (hreads.drain h.next_le (hlt.trans_le hpublished)).congr rfl rfl
  · rw [show _ = _ from setThread_self s t _]
    exact (hreads.setPc _).congr (reportConsumerProgress_slots _ _) rfl
  · rw [show _ = _ from setThread_self s t _]
    exact (hreads.setPc _).congr rfl rfl

/-- A step of a thread neither copies nor publishes. -/
theorem threadStep_slots (hstep : s.threadStep numThreads t = some s') :
    s'.journal.slots = s.journal.slots ∧ s'.nextOrder = s.nextOrder := by
  obtain ⟨pc, rfl, -⟩ | ⟨published, -, -, -, rfl⟩ | ⟨-, -, rfl⟩ | ⟨-, -, -, rfl⟩ :=
    threadStep_cases hstep
  · exact ⟨rfl, rfl⟩
  · exact ⟨rfl, rfl⟩
  · exact ⟨reportConsumerProgress_slots _ _, rfl⟩
  · exact ⟨rfl, rfl⟩

/-- Every step that does not lap a thread keeps the invariant. -/
theorem Inv.step (h : Inv orders numThreads s) {a : BroadcastAction}
    (hkeepsUp : KeepsUp orders numThreads s a) (hstep : s.step orders numThreads a = some s') :
    Inv orders numThreads s' := by
  refine (h.paced.step hstep).inv fun t ht => ?_
  have hreads := h.reads t ht
  cases a with
  | publish =>
    rw [BroadcastRun.step, BroadcastRun.publish] at hstep
    split at hstep
    · rename_i order horder
      obtain rfl := Option.some.inj hstep
      obtain ⟨hlt, -⟩ := List.getElem?_eq_some_iff.mp horder
      exact hreads.publish horder (hkeepsUp rfl hlt t ht)
    · contradiction
  | setDone =>
    obtain ⟨-, hset⟩ := Option.ite_none_right_eq_some.mp hstep
    obtain rfl := Option.some.inj hset
    exact hreads.congr rfl rfl
  | thread t' =>
    obtain ⟨-, hthread⟩ := Option.ite_none_right_eq_some.mp hstep
    by_cases htt : t = t'
    · subst htt
      exact h.reads_threadStep ht hthread
    · obtain ⟨hslots, hnext⟩ := threadStep_slots hthread
      have hother : BroadcastAction.thread t' ≠ .thread t :=
        fun heq => htt (BroadcastAction.thread.inj heq).symm
      rw [threads_of_other hstep hother]
      exact hreads.congr hslots hnext

end Invariant

end BroadcastRun

end NanoRing
