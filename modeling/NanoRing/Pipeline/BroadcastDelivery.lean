import NanoRing.Pipeline.BroadcastInvariant

/-!
# Delivery of the broadcast pipeline

As long as no publish laps a book thread, each thread reads all orders in order and applies those
of its shard. `Pipeline::run` publishes without looking at the consumers, so nothing in it
keeps the producer from lapping: a thread that starts late reads a later order as its first.
-/

namespace NanoRing

open Schedule

namespace BroadcastRun

section Delivery

variable {orders : List DecodedOrder} {numThreads : ℕ} {s : BroadcastRun} {t : ℕ}

/-- A thread that has left its loop has read all orders and recorded its count. -/
theorem Inv.of_exited (h : Inv orders numThreads s) (ht : t < numThreads)
    (hpc : (s.threads t).pc = .exited) :
    (s.threads t).seen = orders ∧
      s.threadMessageCounts t = (shardOrders numThreads orders t).length := by
  obtain ⟨hlocal, hcount⟩ := (h.knows t ht).read_all hpc
  have hreads := h.reads t ht
  have hseen : (s.threads t).seen = orders := by
    rw [hreads.seen, hlocal, List.take_length]
  exact ⟨hseen, by rw [hcount, hreads.localCount, hseen]⟩

theorem Inv.delivers (h : Inv orders numThreads s) (hthreads : 1 ≤ numThreads) :
    Delivers orders numThreads s where
  seen := fun t ht => (h.reads t ht).seen
  managers := fun hexited t ht => by
    rw [(h.reads t ht).manager, (h.of_exited ht (hexited t ht)).1]
  counts := fun hexited => by
    rw [← sum_length_shardOrders hthreads orders]
    refine Finset.sum_congr rfl fun t ht => ?_
    exact (h.of_exited (Finset.mem_range.mp ht) (hexited t (Finset.mem_range.mp ht))).2

/-- In every run in which no publish laps a thread, every thread reads the orders in order, and
all orders are applied once all threads have left their loops. -/
theorem delivers_of_keepsUp (hthreads : 1 ≤ numThreads) {actions : List BroadcastAction}
    (hguard : Guarded (BroadcastRun.step orders numThreads) (KeepsUp orders numThreads) start
      actions)
    (hrun : run (BroadcastRun.step orders numThreads) start actions = some s) :
    Delivers orders numThreads s :=
  (guarded_invariant (fun _ _ _ h hkeepsUp hstep => Inv.step h hkeepsUp hstep)
    (start_inv orders numThreads) hguard hrun).delivers hthreads

/-- No publish laps a thread when the journal has a slot for every order. -/
theorem keepsUp_of_length_le (h : orders.length ≤ 2 ^ journalExponent) (a : BroadcastAction) :
    KeepsUp orders numThreads s a :=
  fun _ hnext _ _ => hnext.trans_le (h.trans (Nat.le_add_left _ _))

/-- A bid and an Execute of a part of it for one symbol, and an offer for another. -/
def threeOrders : List DecodedOrder :=
  [⟨.add, 1, 5, 100, 50, sideBuy, 0⟩, ⟨.add, 2, 8, 90, 20, sideSell, 0⟩,
    ⟨.execute, 1, 5, 0, 20, sideBuy, 0⟩]

/-- Two threads start to read while the orders are being published. -/
def threeOrdersRead : List BroadcastAction :=
  [.publish, .thread 0, .thread 0, .publish, .thread 1, .publish, .setDone] ++
    List.replicate 10 (.thread 0) ++ List.replicate 11 (.thread 1)

/-- Both leave their loops, and together they count the three orders. -/
theorem threeOrders_delivered :
    ∃ s, run (BroadcastRun.step threeOrders 2) start threeOrdersRead = some s ∧
      ∑ t ∈ Finset.range 2, s.threadMessageCounts t = 3 := by
  have hends : (run (BroadcastRun.step threeOrders 2) start threeOrdersRead).any
      (fun s => ∀ t < 2, (s.threads t).pc = .exited) = true := by decide +kernel
  obtain ⟨s, hrun, hpc⟩ := (Option.any_eq_true _ _).mp hends
  refine ⟨s, hrun, (delivers_of_keepsUp (by decide) ?_ hrun).counts (of_decide_eq_true hpc)⟩
  exact fun _ a _ _ _ => keepsUp_of_length_le (by decide) a

/-! ### A lapped thread -/

theorem step_publish {order : DecodedOrder} (horder : orders[s.nextOrder]? = some order) :
    s.step orders numThreads .publish =
      some { s with
        journal := s.journal.publish journalExponent s.nextOrder order
        nextOrder := s.nextOrder + 1 } := by
  rw [BroadcastRun.step, BroadcastRun.publish, horder]

/-- The producer may publish any number of orders before a thread takes a step. -/
theorem exists_run_publish (numThreads : ℕ) {k : ℕ} (hk : k ≤ orders.length) :
    ∃ s, run (BroadcastRun.step orders numThreads) start (List.replicate k .publish) = some s ∧
      s.nextOrder = k ∧ s.threads = start.threads := by
  induction k with
  | zero => exact ⟨start, rfl, rfl, rfl⟩
  | succ k ih =>
    obtain ⟨s, hrun, hnext, hthreads⟩ := ih (Nat.le_of_succ_le hk)
    have horder : orders[s.nextOrder]? = some orders[k] := hnext ▸ List.getElem?_eq_getElem hk
    rw [List.replicate_succ']
    refine ⟨_, run_snoc_eq_some_iff.mpr ⟨s, hrun, step_publish horder⟩, ?_, hthreads⟩
    exact congrArg (· + 1) hnext

/-- A thread reads the order of the last publish from its slot, whatever number it reads. -/
theorem nextRead_of_publish {order : DecodedOrder}
    (hslot : (s.threads t).localSeq % 2 ^ journalExponent = s.nextOrder % 2 ^ journalExponent) :
    nextRead { s with
      journal := s.journal.publish journalExponent s.nextOrder order
      nextOrder := s.nextOrder + 1 } t = order := by
  rw [nextRead, BroadcastJournal.getPayload, BroadcastJournal.slotOf_eq, hslot,
    ← BroadcastJournal.slotOf_eq]
  exact Function.update_self _ _ _

theorem threadStep_of_load (hpc : (s.threads t).pc = .loadPublished)
    (hlt : (s.threads t).localSeq < s.journal.publishedIndex) :
    s.threadStep numThreads t =
      some (s.setThread t { s.threads t with pc := .draining s.journal.publishedIndex }) := by
  unfold BroadcastRun.threadStep
  simp only [hpc]
  exact if_neg (Nat.not_le_of_lt hlt)

theorem threadStep_of_draining {published : ℕ} (hpc : (s.threads t).pc = .draining published)
    (hlt : (s.threads t).localSeq < published) :
    s.threadStep numThreads t = some (s.setThread t (s.drain numThreads t)) := by
  unfold BroadcastRun.threadStep
  simp only [hpc]
  exact if_pos hlt

/-- A thread that has read nothing loads the published index and reads one order. -/
theorem run_first_read (orders : List DecodedOrder) (hthread : s.threads 0 = start.threads 0)
    (hnext : 0 < s.journal.publishedIndex) :
    ∃ s', run (BroadcastRun.step orders 1) s [.thread 0, .thread 0] = some s' ∧
      (s'.threads 0).localSeq = 1 ∧ (s'.threads 0).seen = [s.nextRead 0] := by
  let drained := s.setThread 0 { s.threads 0 with pc := .draining s.journal.publishedIndex }
  have hload : s.step orders 1 (.thread 0) = some drained := by
    rw [BroadcastRun.step, if_pos Nat.one_pos]
    refine threadStep_of_load ?_ ?_
    · rw [hthread]
      rfl
    · rw [hthread]
      exact hnext
  have hlocal : (drained.threads 0).localSeq = 0 := by
    rw [setThread_self, hthread]
    rfl
  have hseen : (drained.threads 0).seen = [] := by
    rw [setThread_self, hthread]
    rfl
  have hread : drained.nextRead 0 = s.nextRead 0 := by
    rw [nextRead, hlocal, nextRead, hthread]
    rfl
  have hdrain : drained.step orders 1 (.thread 0) =
      some (drained.setThread 0 (drained.drain 1 0)) := by
    rw [BroadcastRun.step, if_pos Nat.one_pos]
    refine threadStep_of_draining (congrArg BookThread.pc (setThread_self s 0 _)) ?_
    rw [hlocal]
    exact hnext
  refine ⟨drained.setThread 0 (drained.drain 1 0), ?_, ?_, ?_⟩
  · exact run_cons_eq_some_iff.mpr ⟨drained, hload, run_cons_eq_some_iff.mpr ⟨_, hdrain, rfl⟩⟩
  · rw [setThread_self, drain_localSeq, hlocal]
  · rw [setThread_self, drain_seen, hseen, hread]
    rfl

/-- After `2 ^ 17 + 1` publishes a thread that starts late reads the last order as its first. -/
theorem exists_lapped_run {order : DecodedOrder}
    (hlast : orders[2 ^ journalExponent]? = some order) :
    ∃ s, run (BroadcastRun.step orders 1) start
        (List.replicate (2 ^ journalExponent) .publish ++ [.publish, .thread 0, .thread 0]) = some s ∧
      (s.threads 0).localSeq = 1 ∧ (s.threads 0).seen = [order] := by
  obtain ⟨hlt, -⟩ := List.getElem?_eq_some_iff.mp hlast
  obtain ⟨s, hrun, hnext, hthreads⟩ := exists_run_publish 1 hlt.le
  have hthread : s.threads 0 = start.threads 0 := congrFun hthreads 0
  let lapped : BroadcastRun :=
    { s with
      journal := s.journal.publish journalExponent s.nextOrder order
      nextOrder := s.nextOrder + 1 }
  have hpublish : s.step orders 1 .publish = some lapped := step_publish (hnext ▸ hlast)
  have hlapped : lapped.nextRead 0 = order := by
    refine nextRead_of_publish ?_
    rw [hthread, hnext, Nat.mod_self]
    exact Nat.zero_mod _
  obtain ⟨s', hreads, hlocal, hseen⟩ := run_first_read (s := lapped) orders hthread (Nat.succ_pos _)
  refine ⟨s', ?_, hlocal, hlapped ▸ hseen⟩
  rw [run_append, hrun, Option.bind_some]
  exact run_cons_eq_some_iff.mpr ⟨lapped, hpublish, hreads⟩

/-- A new order of one symbol. -/
def addOrder (i : ℕ) : DecodedOrder := ⟨.add, i.toUInt64, 5, 100, 10, sideBuy, 0⟩

/-- One order more than the journal has slots. -/
def manyOrders : List DecodedOrder := (List.range (2 ^ journalExponent + 1)).map addOrder

/-- The thread reads the last order where it should read the first. -/
theorem manyOrders_not_delivered :
    ∃ s, run (BroadcastRun.step manyOrders 1) start
        (List.replicate (2 ^ journalExponent) .publish ++ [.publish, .thread 0, .thread 0]) = some s ∧
      (s.threads 0).seen = [addOrder 131072] ∧ ¬ Delivers manyOrders 1 s := by
  have hlast : manyOrders[2 ^ journalExponent]? = some (addOrder (2 ^ journalExponent)) := by
    rw [manyOrders, List.getElem?_map, List.getElem?_range (Nat.lt_succ_self _), Option.map_some]
  obtain ⟨s, hrun, hlocal, hseen⟩ := exists_lapped_run hlast
  refine ⟨s, hrun, hseen, fun hdelivers => ?_⟩
  have hfirst := hdelivers.seen 0 Nat.one_pos
  rw [hseen, hlocal, manyOrders, ← List.map_take, List.take_range] at hfirst
  have hdiffer : [addOrder 131072] ≠ [addOrder 0] := by decide
  exact hdiffer hfirst

end Delivery

end BroadcastRun

end NanoRing
