import NanoRing.Common.Fairness
import NanoRing.Pipeline.RoutedBatches

/-!
# The routed pipeline ends

The producer spins while the ring of a shard is full and a book thread spins while its ring is
empty and the flag is not set, so a run may go on for ever when one of them never gets a turn.
Under a fair schedule it cannot: a producer that spins waits for a thread that has something
to pop, and a thread that spins waits for the producer. The rank of a state counts what the
producer still has to do, and then for every thread the orders that it has not applied and its
place in the loop.
-/

namespace NanoRing

open Schedule

namespace RoutedRun

variable {orders : OrderArray} {numThreads : ℕ} {s s' : RoutedRun} {t : ℕ}

/-- The producer and the book threads. -/
def actions (numThreads : ℕ) : Set RoutedAction :=
  {a | a = .route ∨ ∃ t < numThreads, a = .thread t}

/-- The producer has finished and every thread has left its loop. -/
def Joined (numThreads : ℕ) (s : RoutedRun) : Prop :=
  s.router = .finished ∧ ∀ t < numThreads, (s.consumers t).pc = .exited

/-- The ring of thread `t` is empty. -/
def ringEmpty (s : RoutedRun) (t : ℕ) : Bool :=
  SpscQueue.isEmpty (s.queues t).head (s.queues t).tail

/-! ### The rank -/

/-- What the producer still has to do: the orders and shards that are left, and within one of
them the places of the batch. -/
def producerRank (orders : OrderArray) (numThreads : ℕ) (s : RoutedRun) : ℕ ×ₗ ℕ :=
  match s.router with
  | .routing i => toLex (2 * (orders.1.length - i) + numThreads + 2, 0)
  | .pushing i shard j =>
    toLex (2 * (orders.1.length - i) + numThreads + 1, (s.batches shard).length - j)
  | .flushing shard j => toLex (numThreads + 1 - shard, (s.batches shard).length - j)
  | .finished => toLex (0, 0)

/-- How far a place is from a step that pops an order or leaves the loop. -/
def placeRank (empty done : Bool) : RoutedConsumerPc → ℕ
  | .popping => if empty && done then 3 else 1
  | .testDone => if empty then (if done then 2 else 1) else 3
  | .testAvailable => if empty then 1 else 2
  | .applying _ => 0
  | .exited => 0

/-- The orders that thread `t` has not applied, and its place. -/
def threadRank (orders : OrderArray) (numThreads : ℕ) (s : RoutedRun) (t : ℕ) : ℕ :=
  4 * ((shardOrders numThreads orders.1 t).length - (s.consumers t).applied.length) +
    placeRank (s.ringEmpty t) s.producerDone (s.consumers t).pc

def rank (orders : OrderArray) (numThreads : ℕ) (s : RoutedRun) : (ℕ ×ₗ ℕ) ×ₗ ℕ :=
  toLex (producerRank orders numThreads s,
    ∑ t ∈ Finset.range numThreads, threadRank orders numThreads s t)

theorem placeRank_le (empty done : Bool) (pc : RoutedConsumerPc) : placeRank empty done pc ≤ 3 := by
  cases pc with
  | applying order => exact Nat.zero_le _
  | popping | testDone | testAvailable | exited => cases empty <;> cases done <;> decide

/-! ### Steps of the producer -/

theorem rank_lt_of_producer (h : producerRank orders numThreads s' < producerRank orders numThreads s) :
    rank orders numThreads s' < rank orders numThreads s :=
  Prod.Lex.toLex_lt_toLex.mpr (.inl h)

theorem lex_lt_of_fst {a a' b b' : ℕ} (h : a' < a) : toLex (a', b') < toLex (a, b) :=
  Prod.Lex.toLex_lt_toLex.mpr (.inl h)

theorem lex_lt_of_snd {a b b' : ℕ} (h : b' < b) : toLex (a, b') < toLex (a, b) :=
  Prod.Lex.toLex_lt_toLex.mpr (.inr ⟨rfl, h⟩)

/-- Every step of the producer leaves it less to do. -/
theorem RouteMoves.producerRank_lt (h : RouteMoves orders numThreads s s')
    (hbatched : Batched orders numThreads s) :
    producerRank orders numThreads s' < producerRank orders numThreads s := by
  have hwithin := hbatched.within
  cases h with
  | append i order hrouter horder hroom =>
    obtain ⟨hlt, -⟩ := List.getElem?_eq_some_iff.mp horder
    simp only [producerRank, hrouter]
    exact lex_lt_of_fst (by omega)
  | fill i order hrouter horder hfull =>
    simp only [producerRank, hrouter]
    exact lex_lt_of_fst (by omega)
  | startFlush i hrouter hend =>
    simp only [producerRank, hrouter]
    exact lex_lt_of_fst (by omega)
  | pushFull i shard j msg queue hrouter hmsg hpush =>
    obtain ⟨hlt, -⟩ := List.getElem?_eq_some_iff.mp hmsg
    simp only [producerRank, hrouter, setQueue]
    exact lex_lt_of_snd (by omega)
  | clear i shard j hrouter hend =>
    rw [hrouter] at hwithin
    have hlt := hwithin.1
    simp only [producerRank, hrouter]
    exact lex_lt_of_fst (by omega)
  | pushRest shard j msg queue hrouter hshard hmsg hpush =>
    obtain ⟨hlt, -⟩ := List.getElem?_eq_some_iff.mp hmsg
    simp only [producerRank, hrouter, setQueue]
    exact lex_lt_of_snd (by omega)
  | nextShard shard j hrouter hshard hend =>
    simp only [producerRank, hrouter]
    exact lex_lt_of_fst (by omega)
  | finish shard j hrouter hlast =>
    rw [hrouter] at hwithin
    have hle : shard ≤ numThreads := hwithin
    simp only [producerRank, hrouter]
    exact lex_lt_of_fst (by omega)

/-- The producer has a step unless it has finished or spins on a full ring. -/
theorem routeStep_isSome_or (orders : OrderArray) (numThreads : ℕ) (s : RoutedRun) :
    (s.routeStep orders numThreads).isSome ∨ s.router = .finished ∨
      ∃ shard, (shard < numThreads ∨ ∃ i j, s.router = .pushing i shard j) ∧
        SpscQueue.isFull queueExponent (s.queues shard).head (s.queues shard).tail = true := by
  have hpush (shard : ℕ) (msg : DecodedOrder) (next : RouterPc) :
      (s.pushInto shard msg next).isSome ∨
        SpscQueue.isFull queueExponent (s.queues shard).head (s.queues shard).tail = true := by
    by_cases hfull : SpscQueue.isFull queueExponent (s.queues shard).head (s.queues shard).tail = true
    · exact .inr hfull
    · rw [pushInto, SpscQueue.push, if_neg hfull]
      exact .inl rfl
  unfold RoutedRun.routeStep
  cases hrouter : s.router with
  | routing i =>
    refine .inl ?_
    dsimp only
    split
    · split <;> rfl
    · rfl
  | pushing i shard j =>
    dsimp only
    split
    · rename_i msg hmsg
      exact (hpush shard msg _).imp_right fun hfull => .inr ⟨shard, .inr ⟨i, j, rfl⟩, hfull⟩
    · exact .inl rfl
  | flushing shard j =>
    dsimp only
    split
    · rename_i hshard
      split
      · rename_i msg hmsg
        exact (hpush shard msg _).imp_right fun hfull => .inr ⟨shard, .inl hshard, hfull⟩
      · exact .inl rfl
    · exact .inl rfl
  | finished => exact .inr (.inl rfl)

/-! ### Steps of a book thread -/

/-- A thread that has nothing to pop and may not leave yet. -/
def Waits (s : RoutedRun) (t : ℕ) : Prop :=
  s.ringEmpty t = true ∧ s.producerDone = false ∧
    ((s.consumers t).pc = .popping ∨ (s.consumers t).pc = .testDone)

theorem tryPop_eq_none_iff : (s.queues t).tryPop queueExponent = none ↔ s.ringEmpty t = true := by
  rw [SpscQueue.tryPop, ringEmpty]
  split
  · rename_i hempty
    exact iff_of_true rfl hempty
  · rename_i hmore
    exact iff_of_false nofun hmore

theorem ringEmpty_iff_available {popped pushed : ℕ} (h : Routes orders numThreads s t popped pushed) :
    s.ringEmpty t = true ↔ (s.queues t).available = 0 := by
  have hle := h.holds.popped_le
  rw [ringEmpty, h.holds.isEmpty_iff, ← BitVec.toNat_inj, h.holds.toNat_available]
  change popped = pushed ↔ pushed - popped = 0
  omega

/-- A step that keeps what a thread has applied and its ring lowers its rank with its place. -/
theorem threadRank_lt_of_place (happlied : (s'.consumers t).applied = (s.consumers t).applied)
    (hplace : placeRank (s'.ringEmpty t) s'.producerDone (s'.consumers t).pc <
      placeRank (s.ringEmpty t) s.producerDone (s.consumers t).pc) :
    threadRank orders numThreads s' t < threadRank orders numThreads s t := by
  rw [threadRank, threadRank, happlied]
  exact Nat.add_lt_add_left hplace _

theorem threadRank_setPc_lt {pc : RoutedConsumerPc}
    (hplace : placeRank (s.ringEmpty t) s.producerDone pc <
      placeRank (s.ringEmpty t) s.producerDone (s.consumers t).pc) :
    threadRank orders numThreads (s.setConsumer t { s.consumers t with pc := pc }) t <
      threadRank orders numThreads s t := by
  refine threadRank_lt_of_place ?_ ?_
  · rw [setConsumer_self]
  · rw [setConsumer_self]
    exact hplace

/-- Every step of a thread that does not wait lowers its rank. -/
theorem ThreadMoves.threadRank_lt (h : ThreadMoves s t s') (hinv : Inv orders numThreads s)
    (ht : t < numThreads) (hbusy : ¬ s.Waits t) :
    threadRank orders numThreads s' t < threadRank orders numThreads s t := by
  obtain ⟨popped, pushed, hr, ha⟩ := hinv.shard t ht
  cases h with
  | pop order queue hpc hpop =>
    have hmore : s.ringEmpty t ≠ true := fun hempty => by
      rw [tryPop_eq_none_iff.mpr hempty] at hpop
      contradiction
    refine threadRank_lt_of_place ?_ ?_
    · rw [setConsumer_self]
    · rw [setConsumer_self, hpc, Bool.eq_false_of_not_eq_true hmore]
      exact Nat.zero_lt_one
  | foundEmpty hpc hempty =>
    have hring := tryPop_eq_none_iff.mp hempty
    have hdone : s.producerDone = true := by
      by_contra hopen
      exact hbusy ⟨hring, Bool.eq_false_of_not_eq_true hopen, .inl hpc⟩
    refine threadRank_setPc_lt ?_
    rw [hpc, hring, hdone]
    decide
  | apply order hpc =>
    -- the order in hand is one that the thread has not applied before
    have happlied := congrArg List.length ha.applied
    rw [inHand, hpc, List.length_append, List.length_singleton] at happlied
    have hle := List.length_take_le' popped (shardOrders numThreads orders.1 t)
    have hplace := placeRank_le (ringEmpty (s.setConsumer t
      { pc := .popping
        localCount := (s.consumers t).localCount + 1
        manager := (s.consumers t).manager.apply order
        applied := (s.consumers t).applied ++ [order] }) t) s.producerDone .popping
    rw [threadRank, threadRank, setConsumer_self, List.length_append, List.length_singleton]
    change 4 * _ + placeRank _ s.producerDone .popping < _
    omega
  | foundDone hpc hdone =>
    refine threadRank_setPc_lt ?_
    rw [hpc, hdone]
    cases s.ringEmpty t <;> decide
  | again hpc hdone =>
    have hmore : s.ringEmpty t = false := by
      by_contra hempty
      exact hbusy ⟨Bool.eq_true_of_not_eq_false hempty, hdone, .inr hpc⟩
    refine threadRank_setPc_lt ?_
    rw [hpc, hdone, hmore]
    decide
  | leave hpc hempty =>
    refine threadRank_lt_of_place ?_ ?_
    · change ((s.setConsumer t _).consumers t).applied = _
      rw [setConsumer_self]
    · change placeRank _ s.producerDone ((s.setConsumer t _).consumers t).pc < _
      rw [setConsumer_self, hpc]
      cases s.ringEmpty t <;> exact Nat.zero_lt_succ _
  | refilled hpc hmore =>
    have hring : s.ringEmpty t = false :=
      Bool.eq_false_of_not_eq_true fun hempty => hmore ((ringEmpty_iff_available hr).mp hempty)
    refine threadRank_setPc_lt ?_
    rw [hpc, hring]
    exact Nat.lt_add_one 1

/-- A thread that waits goes on waiting. -/
theorem ThreadMoves.of_waits (h : ThreadMoves s t s') (hwaits : s.Waits t) :
    ∃ pc, (pc = .popping ∨ pc = .testDone) ∧
      s' = s.setConsumer t { s.consumers t with pc := pc } := by
  obtain ⟨hring, hdone, hpc⟩ := hwaits
  cases h with
  | pop order queue _ hpop =>
    rw [tryPop_eq_none_iff.mpr hring] at hpop
    contradiction
  | foundEmpty => exact ⟨.testDone, .inr rfl, rfl⟩
  | again => exact ⟨.popping, .inl rfl, rfl⟩
  | foundDone _ hset =>
    rw [hdone] at hset
    contradiction
  | apply _ hplace | leave hplace | refilled hplace =>
    rw [hplace] at hpc
    simp at hpc

/-- The rank goes down with the rank of one thread. -/
theorem ThreadMoves.rank_lt (h : ThreadMoves s t s') (ht : t < numThreads)
    (hlower : threadRank orders numThreads s' t < threadRank orders numThreads s t) :
    rank orders numThreads s' < rank orders numThreads s := by
  obtain ⟨hrouter, hbatches, hdone⟩ := h.producer_eq
  have hproducer : producerRank orders numThreads s' = producerRank orders numThreads s := by
    rw [producerRank, producerRank, hrouter, hbatches]
  have hother (t' : ℕ) (hne : t' ≠ t) :
      threadRank orders numThreads s' t' = threadRank orders numThreads s t' := by
    obtain ⟨hconsumer, hqueue⟩ := h.other_eq hne
    rw [threadRank, threadRank, ringEmpty, ringEmpty, hconsumer, hqueue, hdone]
  exact lex_sum_lt hproducer ht hother hlower

/-! ### Fair schedules -/

/-- A step of the producer, or of a thread that does not wait. -/
def Helps (orders : OrderArray) (numThreads : ℕ) (s : RoutedRun) : RoutedAction → Prop
  | .route => (s.routeStep orders numThreads).isSome = true
  | .thread t => t < numThreads ∧ (s.consumers t).pc ≠ .exited ∧ ¬ s.Waits t

/-- Only its batches and which queues are full decide whether the producer has a step. -/
theorem routeStep_isSome_congr (hrouter : s'.router = s.router) (hbatches : s'.batches = s.batches)
    (hfull : ∀ shard, SpscQueue.isFull queueExponent (s'.queues shard).head (s'.queues shard).tail =
      SpscQueue.isFull queueExponent (s.queues shard).head (s.queues shard).tail) :
    (s'.routeStep orders numThreads).isSome = (s.routeStep orders numThreads).isSome := by
  have hpush (shard : ℕ) (msg : DecodedOrder) (next : RouterPc) :
      (s'.pushInto shard msg next).isSome = (s.pushInto shard msg next).isSome := by
    rw [pushInto, pushInto, Option.isSome_map, Option.isSome_map, SpscQueue.push, SpscQueue.push,
      hfull]
    split <;> rfl
  unfold RoutedRun.routeStep
  simp only [hrouter, hbatches]
  cases s.router with
  | routing i =>
    dsimp only
    split
    · split <;> rfl
    · rfl
  | pushing i shard j =>
    dsimp only
    split
    · exact hpush _ _ _
    · rfl
  | flushing shard j =>
    dsimp only
    split
    · split
      · exact hpush _ _ _
      · rfl
    · rfl
  | finished => rfl

theorem threadStep_isSome (h : (s.consumers t).pc ≠ .exited) : (s.threadStep t).isSome := by
  unfold RoutedRun.threadStep
  dsimp only
  cases hpc : (s.consumers t).pc with
  | popping => dsimp only; split <;> rfl
  | applying => rfl
  | testDone => dsimp only; split <;> rfl
  | testAvailable => dsimp only; split <;> rfl
  | exited => exact absurd hpc h

/-- The thread of a full ring has something to pop. -/
theorem Inv.busy_of_full (h : Inv orders numThreads s) (ht : t < numThreads)
    (hfull : SpscQueue.isFull queueExponent (s.queues t).head (s.queues t).tail = true) :
    (s.consumers t).pc ≠ .exited ∧ ¬ s.Waits t := by
  obtain ⟨popped, pushed, hr, ha⟩ := h.shard t ht
  have hcapacity := (hr.holds.isFull_iff (by decide)).mp hfull
  have hlt : popped < pushed := (Nat.lt_add_of_pos_right (by decide)).trans_le hcapacity
  refine ⟨fun hpc => ?_, fun hwaits => ?_⟩
  · have happlied := congrArg List.length ha.applied
    rw [(ha.exited hpc).1, inHand, hpc, List.append_nil,
      List.length_take_of_le (hlt.le.trans hr.pushed_le)] at happlied
    have hpushed := hr.pushed_le
    omega
  · exact hlt.ne (hr.holds.isEmpty_iff.mp hwaits.1)

theorem rank_setPc_of_waits (hwaits : s.Waits t) {pc : RoutedConsumerPc}
    (hpc : pc = .popping ∨ pc = .testDone) :
    rank orders numThreads (s.setConsumer t { s.consumers t with pc := pc }) =
      rank orders numThreads s := by
  obtain ⟨hring, hdone, hplace⟩ := hwaits
  have hone (place : RoutedConsumerPc) (h : place = .popping ∨ place = .testDone) :
      placeRank true false place = 1 := by
    rcases h with rfl | rfl <;> rfl
  refine congrArg (fun sum => toLex (producerRank orders numThreads s, sum))
    (Finset.sum_congr rfl fun t' _ => ?_)
  by_cases hne : t' = t
  · subst hne
    rw [threadRank, threadRank, setConsumer_self]
    change _ + placeRank (s.ringEmpty t') s.producerDone pc = _
    rw [hring, hdone, hone _ hpc, hone _ hplace]
  · rw [threadRank, threadRank, setConsumer_of_ne hne]
    rfl

/-- Until all threads are joined, the producer has a step or a thread has one that it does not
wait for. -/
theorem ranks (orders : OrderArray) (numThreads : ℕ) :
    Ranks (RoutedRun.step orders numThreads) (actions numThreads)
      (fun s => Inv orders numThreads s ∧ Batched orders numThreads s) (Joined numThreads)
      (Helps orders numThreads) (rank orders numThreads) where
  helped := by
    rintro s ⟨hinv, hbatched⟩ hopen
    obtain hroute | hfinished | ⟨shard, hshard, hfull⟩ := routeStep_isSome_or orders numThreads s
    · exact ⟨.route, .inl rfl, hroute⟩
    · have hleft : ∃ t < numThreads, (s.consumers t).pc ≠ .exited := by
        by_contra hall
        exact hopen ⟨hfinished, fun t ht => by_contra fun hpc => hall ⟨t, ht, hpc⟩⟩
      obtain ⟨t, ht, hpc⟩ := hleft
      have hdone := hbatched.within
      rw [hfinished] at hdone
      refine ⟨.thread t, .inr ⟨t, ht, rfl⟩, ht, hpc, fun hwaits => ?_⟩
      exact absurd (hdone.symm.trans hwaits.2.1) (by decide)
    · have hlt : shard < numThreads := by
        obtain hlt | ⟨i, j, hpushing⟩ := hshard
        · exact hlt
        · have hwithin := hbatched.within
          rw [hpushing] at hwithin
          exact hwithin.2
      exact ⟨.thread shard, .inr ⟨shard, hlt, rfl⟩, hlt, hinv.busy_of_full hlt hfull⟩
  lowers := by
    rintro s a ⟨hinv, hbatched⟩ hhelps
    cases a with
    | route =>
      obtain ⟨s', hstep⟩ := Option.isSome_iff_exists.mp hhelps
      have hlower := (routeMoves_of_routeStep hstep).producerRank_lt hbatched
      exact ⟨s', hstep, rank_lt_of_producer hlower⟩
    | thread t =>
      obtain ⟨ht, hpc, hbusy⟩ := hhelps
      obtain ⟨s', hstep⟩ := Option.isSome_iff_exists.mp (threadStep_isSome hpc)
      have hmoves := threadMoves_of_threadStep hstep
      exact ⟨s', (if_pos ht).trans hstep, hmoves.rank_lt ht (hmoves.threadRank_lt hinv ht hbusy)⟩
  keeps := by
    rintro s b s' ⟨hinv, hbatched⟩ hstep
    cases b with
    | route =>
      exact .inl (rank_lt_of_producer ((routeMoves_of_routeStep hstep).producerRank_lt hbatched))
    | thread t =>
      obtain ⟨ht, hthread⟩ := Option.ite_none_right_eq_some.mp hstep
      have hmoves := threadMoves_of_threadStep hthread
      by_cases hwaits : s.Waits t
      · -- a thread that waits helps nobody, and changes nothing that another action needs
        obtain ⟨pc, hpc, rfl⟩ := hmoves.of_waits hwaits
        refine .inr ⟨rank_setPc_of_waits hwaits hpc, fun a hhelps => ?_⟩
        cases a with
        | route =>
          have hsame : ((s.setConsumer t { s.consumers t with pc := pc }).routeStep orders
              numThreads).isSome = (s.routeStep orders numThreads).isSome :=
            routeStep_isSome_congr rfl rfl fun _ => rfl
          exact hsame.trans hhelps
        | thread t' =>
          obtain ⟨ht', hinside, hbusy⟩ := hhelps
          have hne : t' ≠ t := by
            rintro rfl
            exact hbusy hwaits
          have hsame := setConsumer_of_ne (s := s) hne { s.consumers t with pc := pc }
          refine ⟨ht', hsame ▸ hinside, fun hwaits' => hbusy ?_⟩
          rw [Waits, hsame] at hwaits'
          exact hwaits'
      · exact .inl (hmoves.rank_lt ht (hmoves.threadRank_lt hinv ht hwaits))

theorem final_of_joined (h : Joined numThreads s) : Final (RoutedRun.step orders numThreads) s := by
  intro a
  cases a with
  | route => rw [RoutedRun.step, RoutedRun.routeStep, h.1]
  | thread t =>
    rw [RoutedRun.step, ite_eq_right_iff]
    intro ht
    rw [RoutedRun.threadStep, h.2 t ht]

/-- A thread that has left its loop has applied its shard and counted it. -/
theorem Inv.results (h : Inv orders numThreads s) (ht : t < numThreads)
    (hpc : (s.consumers t).pc = .exited) :
    (s.consumers t).manager =
        ShardedBookManager.empty.applyAll (shardOrders numThreads orders.1 t) ∧
      s.threadMessageCounts t = (shardOrders numThreads orders.1 t).length := by
  obtain ⟨_, _, _, ha⟩ := h.shard t ht
  obtain ⟨happlied, hcount⟩ := ha.exited hpc
  exact ⟨happlied ▸ ha.manager, hcount.trans (happlied ▸ ha.localCount)⟩

/-- Every fair schedule comes to a state in which all threads are joined. -/
theorem eventually_joined (orders : OrderArray) (hthreads : 1 ≤ numThreads)
    {turns : ℕ → RoutedAction} (hfair : Fair (actions numThreads) turns) :
    ∃ n, Inv orders numThreads (stateAt (RoutedRun.step orders numThreads) start turns n) ∧
      Joined numThreads (stateAt (RoutedRun.step orders numThreads) start turns n) := by
  have hinv (n : ℕ) :
      Inv orders numThreads (stateAt (RoutedRun.step orders numThreads) start turns n) ∧
        Batched orders numThreads (stateAt (RoutedRun.step orders numThreads) start turns n) := by
    obtain ⟨taken, hrun⟩ := exists_run_stateAt (RoutedRun.step orders numThreads) start turns n
    exact batched_of_run hthreads hrun
  obtain ⟨n, hjoined⟩ := (ranks orders numThreads).eventually_done hinv hfair
  exact ⟨n, (hinv n).1, hjoined⟩

/-- Whatever the feed, every schedule that gives the producer and each book thread a turn again
and again joins all threads, with every order applied by the thread of its shard. -/
theorem fair_schedule_joins (hthreads : 1 ≤ numThreads) {turns : ℕ → RoutedAction}
    (hfair : Fair (actions numThreads) turns) :
    ∃ n s, (∀ m, n ≤ m → stateAt (RoutedRun.step orders numThreads) start turns m = s) ∧
      Joined numThreads s ∧ ∀ t < numThreads,
        (s.consumers t).manager =
            ShardedBookManager.empty.applyAll (shardOrders numThreads orders.1 t) ∧
          s.threadMessageCounts t = (shardOrders numThreads orders.1 t).length := by
  obtain ⟨n, hinv, hjoined⟩ := eventually_joined orders hthreads hfair
  refine ⟨n, _, fun m hle => stateAt_of_final (final_of_joined hjoined) hle, hjoined, ?_⟩
  exact fun t ht => hinv.results ht (hjoined.2 t ht)

/-- The producer and the book threads take turns. -/
def turnAbout (numThreads n : ℕ) : RoutedAction :=
  if n % (numThreads + 1) = 0 then .route else .thread (n % (numThreads + 1) - 1)

theorem turnAbout_fair (numThreads : ℕ) : Fair (actions numThreads) (turnAbout numThreads) := by
  refine fair_of_periodic (Nat.succ_pos numThreads) (fun n => ?_) fun a ha => ?_
  · rw [turnAbout, turnAbout, Nat.add_mod_right]
  · obtain rfl | ⟨t, ht, rfl⟩ := ha
    · exact ⟨0, if_pos (Nat.zero_mod _)⟩
    · refine ⟨t + 1, ?_⟩
      rw [turnAbout, Nat.mod_eq_of_lt (Nat.succ_lt_succ ht)]
      exact if_neg (Nat.succ_ne_zero t)

/-- Two threads are given an order each. -/
theorem turnAbout_joins :
    ∃ n s, (∀ m, n ≤ m → stateAt (RoutedRun.step twoOrders 2) start (turnAbout 2) m = s) ∧
      Joined 2 s ∧ ∀ t < 2,
        (s.consumers t).manager =
            ShardedBookManager.empty.applyAll (shardOrders 2 twoOrders.1 t) ∧
          s.threadMessageCounts t = (shardOrders 2 twoOrders.1 t).length :=
  fair_schedule_joins (by decide) (turnAbout_fair 2)

end RoutedRun

end NanoRing
