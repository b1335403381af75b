import NanoRing.Pipeline.RoutedAccesses
import NanoRing.Pipeline.RoutedProgress

/-!
# The routed pipeline comes to its end, access by access

A thread that waits for nobody in the pipeline gets on access by access: each of its turns leaves
its call less to do, until the call takes effect. A producer that spins on a full queue, or a
thread whose queue is empty, waits for another thread that gets on. So every schedule that gives
each thread a turn again and again joins them all.
-/

namespace NanoRing

open Schedule

namespace RoutedRun

variable {orders : OrderArray} {numThreads : ℕ}

/-! ### What is copied in is not looked at -/

theorem ringEmpty_written (c : RoutedRun) (push : PushAccess) (t : ℕ) :
    (c.written push).ringEmpty t = c.ringEmpty t := by
  obtain ⟨hhead, htail⟩ := c.written_queues push t
  rw [ringEmpty, ringEmpty, hhead, htail]

theorem rank_written (c : RoutedRun) (push : PushAccess) :
    rank orders numThreads (c.written push) = rank orders numThreads c := by
  have hproducer : producerRank orders numThreads (c.written push) =
      producerRank orders numThreads c := by
    cases push <;> rfl
  have hthread (t : ℕ) :
      threadRank orders numThreads (c.written push) t = threadRank orders numThreads c t := by
    rw [threadRank, threadRank, ringEmpty_written, written_consumers, written_producerDone]
  rw [rank, rank, hproducer]
  exact congrArg _ (congrArg _ (Finset.sum_congr rfl fun t _ => hthread t))

theorem helps_written_iff (c : RoutedRun) (push : PushAccess) (a : RoutedAction) :
    Helps orders numThreads (c.written push) a ↔ Helps orders numThreads c a := by
  cases a with
  | route =>
    have hrouter : (c.written push).router = c.router := by cases push <;> rfl
    have hbatches : (c.written push).batches = c.batches := by cases push <;> rfl
    rw [Helps, Helps, routeStep_isSome_congr hrouter hbatches fun shard => by
      rw [(c.written_queues push shard).1, (c.written_queues push shard).2]]
  | thread t =>
    rw [Helps, Helps, Waits, Waits, ringEmpty_written, written_consumers, written_producerDone]

theorem joined_written_iff (c : RoutedRun) (push : PushAccess) :
    Joined numThreads (c.written push) ↔ Joined numThreads c := by
  cases push <;> exact Iff.rfl

end RoutedRun

namespace AccessRun

variable {orders : OrderArray} {numThreads : ℕ} {s s' : AccessRun} {c : RoutedRun} {t : ℕ}

/-- How many accesses a thread has left in its call. -/
def left (s : AccessRun) : RoutedAction → ℕ
  | .route => s.push.left
  | .thread t => (s.pop t).left

/-! ### Turns -/

theorem routeStep_pop (hstep : s.routeStep orders numThreads = some s') : s'.pop = s.pop := by
  unfold AccessRun.routeStep at hstep
  split at hstep
  · split at hstep
    · exact Option.some.inj hstep ▸ rfl
    · obtain ⟨pipeline, -, rfl⟩ := Option.map_eq_some_iff.mp hstep
      rfl
  · split at hstep
    · exact Option.some.inj hstep ▸ rfl
    · exact Option.some.inj hstep ▸ rfl
  · exact Option.some.inj hstep ▸ rfl
  · exact Option.some.inj hstep ▸ rfl

theorem threadStep_push (hstep : s.threadStep t = some s') : s'.push = s.push := by
  unfold AccessRun.threadStep at hstep
  dsimp only at hstep
  split at hstep
  · split at hstep
    · exact Option.some.inj hstep ▸ rfl
    · exact Option.some.inj hstep ▸ rfl
    · obtain ⟨pipeline, -, rfl⟩ := Option.map_eq_some_iff.mp hstep
      rfl
  · split at hstep
    · exact Option.some.inj hstep ▸ rfl
    · exact Option.some.inj hstep ▸ rfl
  · exact Option.some.inj hstep ▸ rfl
  · exact Option.some.inj hstep ▸ rfl
  · split at hstep
    · exact Option.some.inj hstep ▸ rfl
    · exact Option.some.inj hstep ▸ rfl

theorem threadStep_pop (hstep : s.threadStep t = some s') {t' : ℕ} (hne : t' ≠ t) :
    s'.pop t' = s.pop t' := by
  have hother (pop : PopAccess) : Function.update s.pop t pop t' = s.pop t' :=
    Function.update_of_ne hne _ _
  unfold AccessRun.threadStep at hstep
  dsimp only at hstep
  split at hstep
  · split at hstep
    · exact Option.some.inj hstep ▸ hother _
    · exact Option.some.inj hstep ▸ hother _
    · obtain ⟨pipeline, -, rfl⟩ := Option.map_eq_some_iff.mp hstep
      rfl
  · split at hstep
    · exact Option.some.inj hstep ▸ hother _
    · exact Option.some.inj hstep ▸ hother _
  · exact Option.some.inj hstep ▸ hother _
  · exact Option.some.inj hstep ▸ hother _
  · split at hstep
    · exact Option.some.inj hstep ▸ hother _
    · exact Option.some.inj hstep ▸ hother _

/-- An access of one thread leaves the others where they are in their calls. -/
theorem left_of_step {a b : RoutedAction} (hne : a ≠ b)
    (hstep : s.step orders numThreads b = some s') : s'.left a = s.left a := by
  cases b with
  | route =>
    cases a with
    | route => exact absurd rfl hne
    | thread t => exact congrArg PopAccess.left (congrFun (routeStep_pop hstep) t)
  | thread t =>
    obtain ⟨-, hthread⟩ := Option.ite_none_right_eq_some.mp hstep
    cases a with
    | route => exact congrArg PushAccess.left (threadStep_push hthread)
    | thread t' =>
      exact congrArg PopAccess.left (threadStep_pop hthread fun heq => hne (congrArg _ heq))

/-- The producer has an access where the pipeline has a step of it. -/
theorem Refines.routeStep_isSome (h : Refines orders numThreads s c)
    (hroute : (c.routeStep orders numThreads).isSome = true) :
    (s.routeStep orders numThreads).isSome = true := by
  have hmemory := h.memory
  unfold AccessRun.routeStep
  cases hpush : s.push with
  | outside =>
    rw [hpush] at hmemory
    dsimp only
    split
    · rfl
    · rw [Option.isSome_map, hmemory]
      exact hroute
  | loadTail call head =>
    dsimp only
    split <;> rfl
  | copyIn call head | storeHead call head => rfl

theorem Refines.threadStep_isSome (h : Refines orders numThreads s c)
    (hpc : (c.consumers t).pc ≠ .exited) : (s.threadStep t).isSome = true := by
  have hconsumers : s.pipeline.consumers = c.consumers := by
    rw [h.memory, RoutedRun.written_consumers]
  have hplain : (s.pipeline.threadStep t).isSome = true := by
    refine RoutedRun.threadStep_isSome ?_
    rw [hconsumers]
    exact hpc
  unfold AccessRun.threadStep
  dsimp only
  cases s.pop t with
  | outside =>
    dsimp only
    split
    · rfl
    · rfl
    · rw [Option.isSome_map]
      exact hplain
  | loadHead tail | loadTail head =>
    dsimp only
    split <;> rfl
  | copyOut tail | storeTail tail order => rfl

theorem Refines.helps_iff (h : Refines orders numThreads s c) {a : RoutedAction} :
    RoutedRun.Helps orders numThreads s.pipeline a ↔ RoutedRun.Helps orders numThreads c a := by
  rw [h.memory, RoutedRun.helps_written_iff]

theorem Refines.rank_eq (h : Refines orders numThreads s c) :
    RoutedRun.rank orders numThreads s.pipeline = RoutedRun.rank orders numThreads c := by
  rw [h.memory, RoutedRun.rank_written]

/-- What is known after every run. -/
def Known (orders : OrderArray) (numThreads : ℕ) (s : AccessRun) : Prop :=
  ∃ c, Refines orders numThreads s c ∧ RoutedRun.Batched orders numThreads c

/-- Until all threads are joined, some thread gets on at each of its turns. -/
theorem patientRanks (orders : OrderArray) (numThreads : ℕ) :
    PatientRanks (AccessRun.step orders numThreads) (RoutedRun.actions numThreads)
      (Known orders numThreads) (fun s => RoutedRun.Joined numThreads s.pipeline)
      (fun s => RoutedRun.Helps orders numThreads s.pipeline)
      (fun s => RoutedRun.rank orders numThreads s.pipeline) left where
  helped := by
    rintro s ⟨c, h, hbatched⟩ hopen
    rw [h.memory, RoutedRun.joined_written_iff] at hopen
    obtain ⟨a, hmem, ha⟩ := (RoutedRun.ranks orders numThreads).helped c ⟨h.inv, hbatched⟩ hopen
    exact ⟨a, hmem, h.helps_iff.mpr ha⟩
  lowers := by
    rintro s a ⟨c, h, hbatched⟩ hhelps
    have hcoarse := h.helps_iff.mp hhelps
    obtain ⟨c', htaken, hlower⟩ :=
      (RoutedRun.ranks orders numThreads).lowers c a ⟨h.inv, hbatched⟩ hcoarse
    -- a turn leaves the call less to do, or it is the step of the pipeline that lowers the rank
    have hturn : ∃ s', s.step orders numThreads a = some s' ∧
        (Refines orders numThreads s' c ∧ s'.left a < s.left a ∨ Refines orders numThreads s' c') := by
      cases a with
      | route =>
        obtain ⟨s', hstep⟩ := Option.isSome_iff_exists.mp (h.routeStep_isSome hcoarse)
        refine ⟨s', hstep, ?_⟩
        obtain ⟨h', hless | ⟨-, hnone⟩⟩ | ⟨c'', hroute, h'⟩ := h.route hstep
        · exact .inl ⟨h', hless⟩
        · cases hnone.symm.trans htaken
        · exact .inr (Option.some.inj (htaken.symm.trans hroute) ▸ h')
      | thread t =>
        obtain ⟨ht, hpc, -⟩ := id hcoarse
        obtain ⟨s', hstep⟩ := Option.isSome_iff_exists.mp (h.threadStep_isSome hpc)
        refine ⟨s', (if_pos ht).trans hstep, ?_⟩
        obtain hhidden | ⟨c'', hthread, h'⟩ := h.thread ht hstep
        · exact .inl hhidden
        · exact .inr (Option.some.inj (htaken.symm.trans ((if_pos ht).trans hthread)) ▸ h')
    obtain ⟨s', hstep, ⟨h', hless⟩ | h'⟩ := hturn
    · exact ⟨s', hstep, .inr ⟨h'.rank_eq.trans h.rank_eq.symm, h'.helps_iff.mpr hcoarse, hless⟩⟩
    · exact ⟨s', hstep, .inl ((h'.rank_eq.trans_lt hlower).trans_eq h.rank_eq.symm)⟩
  keeps := by
    rintro s b s' ⟨c, h, hbatched⟩ hstep
    obtain h' | ⟨b', c', htaken, h'⟩ := h.step hstep
    · refine .inr ⟨h'.rank_eq.trans h.rank_eq.symm, fun a ha hne => ⟨?_, left_of_step hne hstep⟩⟩
      exact h'.helps_iff.mpr (h.helps_iff.mp ha)
    · obtain hlower | ⟨hsame, hkept⟩ :=
        (RoutedRun.ranks orders numThreads).keeps c b' c' ⟨h.inv, hbatched⟩ htaken
      · exact .inl ((h'.rank_eq.trans_lt hlower).trans_eq h.rank_eq.symm)
      · refine .inr ⟨(h'.rank_eq.trans hsame).trans h.rank_eq.symm, fun a ha hne =>
          ⟨?_, left_of_step hne hstep⟩⟩
        exact h'.helps_iff.mpr (hkept a (h.helps_iff.mp ha))

/-- Once all threads are joined, none of them is in a call, and there is nothing left to do. -/
theorem Refines.final (h : Refines orders numThreads s c) (hjoined : RoutedRun.Joined numThreads c) :
    Final (AccessRun.step orders numThreads) s := by
  intro a
  cases a with
  | route =>
    have hcall : c.pushCall numThreads = none := by rw [RoutedRun.pushCall, hjoined.1]
    have hsound := h.push
    have hmemory := h.memory
    rw [AccessRun.step, AccessRun.routeStep]
    cases hpush : s.push with
    | outside =>
      rw [hpush] at hmemory
      have hpipeline : s.pipeline = c := hmemory
      dsimp only
      rw [hpipeline, hcall]
      dsimp only
      rw [RoutedRun.routeStep, hjoined.1]
      rfl
    | loadTail call head | copyIn call head | storeHead call head =>
      rw [hpush] at hsound
      cases hcall.symm.trans hsound.1
  | thread t =>
    rw [AccessRun.step, ite_eq_right_iff]
    intro ht
    have hexited := hjoined.2 t ht
    have hsound := h.pop t ht
    have hconsumers : s.pipeline.consumers = c.consumers := by
      rw [h.memory, RoutedRun.written_consumers]
    rw [AccessRun.threadStep]
    cases hpop : s.pop t with
    | outside =>
      dsimp only
      rw [hconsumers, hexited]
      dsimp only
      rw [RoutedRun.threadStep, hconsumers]
      dsimp only
      rw [hexited]
      rfl
    | loadHead tail | copyOut tail | storeTail tail order | loadTail head =>
      rw [hpop] at hsound
      cases hexited.symm.trans hsound.1

/-- Whatever the feed, every schedule that gives the producer and each book thread one access again
and again joins all threads, with every order applied by the thread of its shard. -/
theorem fair_accesses_join (hthreads : 1 ≤ numThreads) {turns : ℕ → RoutedAction}
    (hfair : Fair (RoutedRun.actions numThreads) turns) :
    ∃ n s, (∀ m, n ≤ m → stateAt (AccessRun.step orders numThreads) start turns m = s) ∧
      RoutedRun.Joined numThreads s.pipeline ∧ ∀ t < numThreads,
        (s.pipeline.consumers t).manager =
            ShardedBookManager.empty.applyAll (shardOrders numThreads orders.1 t) ∧
          s.pipeline.threadMessageCounts t = (shardOrders numThreads orders.1 t).length := by
  have hknown (n : ℕ) : Known orders numThreads
      (stateAt (AccessRun.step orders numThreads) start turns n) := by
    obtain ⟨taken, hrun⟩ := exists_run_stateAt (AccessRun.step orders numThreads) start turns n
    obtain ⟨coarse, c, hcoarse, h⟩ := run_simulates (fun _ _ _ _ h hstep => h.step hstep)
      (start_refines orders numThreads) hrun
    exact ⟨c, h, (RoutedRun.batched_of_run hthreads hcoarse).2⟩
  obtain ⟨n, hjoined⟩ := (patientRanks orders numThreads).eventually_done hknown hfair
  obtain ⟨c, h, -⟩ := hknown n
  have hcoarse : RoutedRun.Joined numThreads c := by
    rw [h.memory, RoutedRun.joined_written_iff] at hjoined
    exact hjoined
  refine ⟨n, _, fun m hle => stateAt_of_final (h.final hcoarse) hle, hjoined, fun t ht => ?_⟩
  rw [h.memory, RoutedRun.written_consumers, RoutedRun.written_threadMessageCounts]
  exact h.inv.results ht (hcoarse.2 t ht)

/-- A producer and two book threads that take turns at each access deliver an order to each
thread. -/
theorem turnAbout_accesses_join :
    ∃ n s, (∀ m, n ≤ m →
        stateAt (AccessRun.step RoutedRun.twoOrders 2) start (RoutedRun.turnAbout 2) m = s) ∧
      RoutedRun.Joined 2 s.pipeline ∧ ∀ t < 2,
        (s.pipeline.consumers t).manager =
            ShardedBookManager.empty.applyAll (shardOrders 2 RoutedRun.twoOrders.1 t) ∧
          s.pipeline.threadMessageCounts t = (shardOrders 2 RoutedRun.twoOrders.1 t).length :=
  fair_accesses_join (by decide) (RoutedRun.turnAbout_fair 2)

end AccessRun

end NanoRing
