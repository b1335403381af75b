import NanoRing.Pipeline.RoutedDelivery

/-!
# What the routed pipeline has in flight

The producer reserves `BATCH_SIZE` places for every batch and pushes into rings of a fixed
size. No batch outgrows its reserve: a batch that is full is pushed before the next order is
routed. So the orders of a shard that are routed and not yet applied are bounded by the batch,
the ring and the one order that its thread has popped, whatever the shard's share of the feed.
-/

namespace NanoRing

open Schedule

namespace RoutedRun

variable {orders : OrderArray} {numThreads : ℕ} {s s' : RoutedRun} {t : ℕ}

/-- The steps of the producer, each with what it has found. -/
inductive RouteMoves (orders : OrderArray) (numThreads : ℕ) (s : RoutedRun) : RoutedRun → Prop
  | append (i : ℕ) (order : DecodedOrder) (hrouter : s.router = .routing i)
      (horder : orders.1[i]? = some order)
      (hroom : (s.batches (getShard numThreads order.tickerKey)).length + 1 < BATCH_SIZE) :
      RouteMoves orders numThreads s
        { s.setBatch (getShard numThreads order.tickerKey)
            (s.batches (getShard numThreads order.tickerKey) ++ [order]) with
          router := .routing (i + 1) }
  | fill (i : ℕ) (order : DecodedOrder) (hrouter : s.router = .routing i)
      (horder : orders.1[i]? = some order)
      (hfull : BATCH_SIZE ≤ (s.batches (getShard numThreads order.tickerKey)).length + 1) :
      RouteMoves orders numThreads s
        { s.setBatch (getShard numThreads order.tickerKey)
            (s.batches (getShard numThreads order.tickerKey) ++ [order]) with
          router := .pushing i (getShard numThreads order.tickerKey) 0 }
  | startFlush (i : ℕ) (hrouter : s.router = .routing i) (hend : orders.1[i]? = none) :
      RouteMoves orders numThreads s { s with router := .flushing 0 0 }
  | pushFull (i shard j : ℕ) (msg : DecodedOrder) (queue : ShardQueue)
      (hrouter : s.router = .pushing i shard j) (hmsg : (s.batches shard)[j]? = some msg)
      (hpush : (s.queues shard).push queueExponent msg = some queue) :
      RouteMoves orders numThreads s
        { s.setQueue shard queue with router := .pushing i shard (j + 1) }
  | clear (i shard j : ℕ) (hrouter : s.router = .pushing i shard j)
      (hend : (s.batches shard)[j]? = none) :
      RouteMoves orders numThreads s { s.setBatch shard [] with router := .routing (i + 1) }
  | pushRest (shard j : ℕ) (msg : DecodedOrder) (queue : ShardQueue)
      (hrouter : s.router = .flushing shard j) (hshard : shard < numThreads)
      (hmsg : (s.batches shard)[j]? = some msg)
      (hpush : (s.queues shard).push queueExponent msg = some queue) :
      RouteMoves orders numThreads s
        { s.setQueue shard queue with router := .flushing shard (j + 1) }
  | nextShard (shard j : ℕ) (hrouter : s.router = .flushing shard j) (hshard : shard < numThreads)
      (hend : (s.batches shard)[j]? = none) :
      RouteMoves orders numThreads s { s with router := .flushing (shard + 1) 0 }
  | finish (shard j : ℕ) (hrouter : s.router = .flushing shard j) (hlast : numThreads ≤ shard) :
      RouteMoves orders numThreads s { s with router := .finished, producerDone := true }

theorem routeMoves_of_routeStep (h : s.routeStep orders numThreads = some s') :
    RouteMoves orders numThreads s s' := by
  unfold RoutedRun.routeStep at h
  cases hrouter : s.router with
  | routing i =>
    simp only [hrouter] at h
    split at h
    · rename_i order horder
      rw [List.length_append, List.length_singleton] at h
      split at h
      · rename_i hfull
        exact Option.some.inj h ▸ .fill i order hrouter horder hfull
      · rename_i hroom
        exact Option.some.inj h ▸ .append i order hrouter horder (Nat.lt_of_not_le hroom)
    · rename_i hend
      exact Option.some.inj h ▸ .startFlush i hrouter hend
  | pushing i shard j =>
    simp only [hrouter] at h
    split at h
    · rename_i msg hmsg
      obtain ⟨queue, hpush, rfl⟩ := Option.map_eq_some_iff.mp h
      exact .pushFull i shard j msg queue hrouter hmsg hpush
    · rename_i hend
      exact Option.some.inj h ▸ .clear i shard j hrouter hend
  | flushing shard j =>
    simp only [hrouter] at h
    split at h
    · rename_i hshard
      split at h
      · rename_i msg hmsg
        obtain ⟨queue, hpush, rfl⟩ := Option.map_eq_some_iff.mp h
        exact .pushRest shard j msg queue hrouter hshard hmsg hpush
      · rename_i hend
        exact Option.some.inj h ▸ .nextShard shard j hrouter hshard hend
    · rename_i hlast
      exact Option.some.inj h ▸ .finish shard j hrouter (Nat.le_of_not_lt hlast)
  | finished =>
    simp only [hrouter] at h
    contradiction

/-- The steps of a book thread, each with what it has found. -/
inductive ThreadMoves (s : RoutedRun) (t : ℕ) : RoutedRun → Prop
  | pop (order : DecodedOrder) (queue : ShardQueue) (hpc : (s.consumers t).pc = .popping)
      (hpop : (s.queues t).tryPop queueExponent = some (order, queue)) :
      ThreadMoves s t
        ((s.setQueue t queue).setConsumer t { s.consumers t with pc := .applying order })
  | foundEmpty (hpc : (s.consumers t).pc = .popping)
      (hempty : (s.queues t).tryPop queueExponent = none) :
      ThreadMoves s t (s.setConsumer t { s.consumers t with pc := .testDone })
  | apply (order : DecodedOrder) (hpc : (s.consumers t).pc = .applying order) :
      ThreadMoves s t (s.setConsumer t
        { pc := .popping
          localCount := (s.consumers t).localCount + 1
          manager := (s.consumers t).manager.apply order
          applied := (s.consumers t).applied ++ [order] })
  | foundDone (hpc : (s.consumers t).pc = .testDone) (hdone : s.producerDone = true) :
      ThreadMoves s t (s.setConsumer t { s.consumers t with pc := .testAvailable })
  | again (hpc : (s.consumers t).pc = .testDone) (hdone : s.producerDone = false) :
      ThreadMoves s t (s.setConsumer t { s.consumers t with pc := .popping })
  | leave (hpc : (s.consumers t).pc = .testAvailable) (hempty : (s.queues t).available = 0) :
      ThreadMoves s t
        { s.setConsumer t { s.consumers t with pc := .exited } with
          threadMessageCounts :=
            Function.update s.threadMessageCounts t (s.consumers t).localCount }
  | refilled (hpc : (s.consumers t).pc = .testAvailable)
      (hmore : (s.queues t).available ≠ 0) :
      ThreadMoves s t (s.setConsumer t { s.consumers t with pc := .popping })

theorem threadMoves_of_threadStep (h : s.threadStep t = some s') : ThreadMoves s t s' := by
  unfold RoutedRun.threadStep at h
  dsimp only at h
  cases hpc : (s.consumers t).pc with
  | popping =>
    simp only [hpc] at h
    split at h
    · rename_i order queue hpop
      exact Option.some.inj h ▸ .pop order queue hpc hpop
    · rename_i hempty
      exact Option.some.inj h ▸ .foundEmpty hpc hempty
  | applying order =>
    simp only [hpc] at h
    exact Option.some.inj h ▸ .apply order hpc
  | testDone =>
    simp only [hpc] at h
    split at h
    · rename_i hdone
      exact Option.some.inj h ▸ .foundDone hpc hdone
    · rename_i hdone
      exact Option.some.inj h ▸ .again hpc (Bool.not_eq_true _ ▸ hdone)
  | testAvailable =>
    simp only [hpc] at h
    split at h
    · rename_i hempty
      exact Option.some.inj h ▸ .leave hpc (eq_of_beq hempty)
    · rename_i hmore
      exact Option.some.inj h ▸ .refilled hpc fun hzero => hmore (beq_iff_eq.mpr hzero)
  | exited =>
    simp only [hpc] at h
    contradiction

/-- A step of a thread leaves everything of the producer as it is. -/
theorem ThreadMoves.producer_eq (h : ThreadMoves s t s') :
    s'.router = s.router ∧ s'.batches = s.batches ∧ s'.producerDone = s.producerDone := by
  cases h <;> exact ⟨rfl, rfl, rfl⟩

/-- A step of a thread leaves the other threads and their queues as they are. -/
theorem ThreadMoves.other_eq (h : ThreadMoves s t s') {t' : ℕ} (hne : t' ≠ t) :
    s'.consumers t' = s.consumers t' ∧ s'.queues t' = s.queues t' := by
  cases h with
  | pop order queue hpc hpop =>
    exact ⟨Function.update_of_ne hne _ _, Function.update_of_ne hne _ _⟩
  | foundEmpty | apply | foundDone | again | leave | refilled =>
    exact ⟨Function.update_of_ne hne _ _, rfl⟩

/-- The place of the producer is one that its loops can reach. -/
def RouterWithin (orders : OrderArray) (numThreads : ℕ) (s : RoutedRun) : RouterPc → Prop
  | .routing i => i ≤ orders.1.length
  | .pushing i shard _ => i < orders.1.length ∧ shard < numThreads
  | .flushing shard _ => shard ≤ numThreads
  | .finished => s.producerDone = true

/-- Only the batch that is being pushed is full, and no batch is larger. -/
structure Batched (orders : OrderArray) (numThreads : ℕ) (s : RoutedRun) : Prop where
  within : RouterWithin orders numThreads s s.router
  room : ∀ shard, (s.batches shard).length < BATCH_SIZE ∨
    (s.batches shard).length = BATCH_SIZE ∧ ∃ i j, s.router = .pushing i shard j

theorem start_batched (orders : OrderArray) (numThreads : ℕ) : Batched orders numThreads start where
  within := Nat.zero_le _
  room := fun _ => .inl (show 0 < BATCH_SIZE by decide)

theorem Batched.length_le (h : Batched orders numThreads s) (shard : ℕ) :
    (s.batches shard).length ≤ BATCH_SIZE := by
  obtain hlt | ⟨heq, -⟩ := h.room shard
  · exact hlt.le
  · exact heq.le

/-- Away from a push every batch has room. -/
theorem Batched.length_lt (h : Batched orders numThreads s)
    (hrouter : ∀ i shard j, s.router ≠ .pushing i shard j) (shard : ℕ) :
    (s.batches shard).length < BATCH_SIZE := by
  obtain hlt | ⟨-, i, j, hpushing⟩ := h.room shard
  · exact hlt
  · exact absurd hpushing (hrouter i shard j)

theorem Batched.routeMoves (h : Batched orders numThreads s) (hthreads : 1 ≤ numThreads)
    (hmoves : RouteMoves orders numThreads s s') : Batched orders numThreads s' := by
  have hwithin := h.within
  cases hmoves with
  | append i order hrouter horder hroom =>
    obtain ⟨hlt, -⟩ := List.getElem?_eq_some_iff.mp horder
    have hrest := h.length_lt (by simp [hrouter])
    refine ⟨hlt, (Function.forall_update_iff s.batches (p := fun shard' batch =>
      batch.length < BATCH_SIZE ∨ _)).mpr ⟨.inl ?_, fun shard' _ => .inl (hrest shard')⟩⟩
    rw [List.length_append, List.length_singleton]
    exact hroom
  | fill i order hrouter horder hfull =>
    obtain ⟨hlt, -⟩ := List.getElem?_eq_some_iff.mp horder
    have hrest := h.length_lt (by simp [hrouter])
    refine ⟨⟨hlt, getShard_lt hthreads _⟩, (Function.forall_update_iff s.batches
      (p := fun shard' batch => batch.length < BATCH_SIZE ∨ batch.length = BATCH_SIZE ∧
        ∃ i' j, RouterPc.pushing i _ 0 = .pushing i' shard' j)).mpr
      ⟨.inr ⟨?_, i, 0, rfl⟩, fun shard' _ => .inl (hrest shard')⟩⟩
    rw [List.length_append, List.length_singleton]
    exact le_antisymm (hrest _) hfull
  | startFlush i hrouter hend =>
    exact ⟨Nat.zero_le _, fun shard => .inl (h.length_lt (by simp [hrouter]) shard)⟩
  | pushFull i shard j msg queue hrouter hmsg hpush =>
    rw [hrouter] at hwithin
    refine ⟨hwithin, fun shard' => (h.room shard').imp_right ?_⟩
    rintro ⟨heq, i', j', hpushing⟩
    obtain ⟨rfl, rfl, rfl⟩ := RouterPc.pushing.inj (hrouter.symm.trans hpushing)
    exact ⟨heq, i, j + 1, rfl⟩
  | clear i shard j hrouter hend =>
    rw [hrouter] at hwithin
    refine ⟨hwithin.1, (Function.forall_update_iff s.batches (p := fun shard' batch =>
      batch.length < BATCH_SIZE ∨ _)).mpr ⟨.inl (by decide), fun shard' hne => .inl ?_⟩⟩
    obtain hlt | ⟨-, i', j', hpushing⟩ := h.room shard'
    · exact hlt
    · exact absurd (RouterPc.pushing.inj (hrouter.symm.trans hpushing)).2.1.symm hne
  | pushRest shard j msg queue hrouter hshard hmsg hpush =>
    exact ⟨hshard.le, fun shard' => .inl (h.length_lt (by simp [hrouter]) shard')⟩
  | nextShard shard j hrouter hshard hend =>
    exact ⟨hshard, fun shard' => .inl (h.length_lt (by simp [hrouter]) shard')⟩
  | finish shard j hrouter hlast =>
    exact ⟨rfl, fun shard' => .inl (h.length_lt (by simp [hrouter]) shard')⟩

theorem Batched.threadMoves (h : Batched orders numThreads s) (hmoves : ThreadMoves s t s') :
    Batched orders numThreads s' := by
  obtain ⟨hrouter, hbatches, hdone⟩ := hmoves.producer_eq
  have hwithin := h.within
  refine ⟨?_, fun shard => ?_⟩
  · rw [hrouter]
    cases hpc : s.router with
    | finished =>
      rw [hpc] at hwithin
      exact hdone.trans hwithin
    | routing | pushing | flushing =>
      rw [hpc] at hwithin
      exact hwithin
  · rw [hrouter, hbatches]
    exact h.room shard

theorem Batched.step (h : Batched orders numThreads s) (hthreads : 1 ≤ numThreads)
    {a : RoutedAction} (hstep : s.step orders numThreads a = some s') :
    Batched orders numThreads s' := by
  cases a with
  | route => exact h.routeMoves hthreads (routeMoves_of_routeStep hstep)
  | thread t =>
    obtain ⟨-, hthread⟩ := Option.ite_none_right_eq_some.mp hstep
    exact h.threadMoves (threadMoves_of_threadStep hthread)

theorem batched_of_run (hthreads : 1 ≤ numThreads) {actions : List RoutedAction}
    (hrun : run (RoutedRun.step orders numThreads) start actions = some s) :
    Inv orders numThreads s ∧ Batched orders numThreads s := by
  have hstart := start_batched orders numThreads
  exact ⟨run_invariant (fun _ _ _ h hstep => Inv.step h hstep) (start_inv orders numThreads) hrun,
    run_invariant (fun _ _ _ h hstep => Batched.step h hthreads hstep) hstart hrun⟩

/-- What is not pushed yet lies in the batch. -/
theorem length_unpushed_le (s : RoutedRun) (t : ℕ) :
    (s.unpushed t).length ≤ (s.batches t).length := by
  unfold unpushed
  cases s.router with
  | routing i => exact le_rfl
  | pushing i shard j =>
    dsimp only
    split
    · exact List.length_drop ▸ Nat.sub_le _ _
    · exact le_rfl
  | flushing shard j =>
    dsimp only
    split
    · exact Nat.zero_le _
    · split
      · exact List.length_drop ▸ Nat.sub_le _ _
      · exact le_rfl
  | finished => exact Nat.zero_le _

/-- In every interleaving no batch outgrows its reserve, no ring holds more than its capacity, and
a shard has at most a batch, a ring and one order more routed than applied. -/
theorem in_flight_bounded (hthreads : 1 ≤ numThreads) {actions : List RoutedAction}
    (hrun : run (RoutedRun.step orders numThreads) start actions = some s) {t : ℕ}
    (ht : t < numThreads) :
    (s.batches t).length ≤ BATCH_SIZE ∧ (s.queues t).available.toNat ≤ 2 ^ queueExponent ∧
      (shardOrders numThreads (orders.1.take (routedUpTo orders s)) t).length ≤
        (s.consumers t).applied.length + 1 + 2 ^ queueExponent + BATCH_SIZE := by
  obtain ⟨hinv, hbatched⟩ := batched_of_run hthreads hrun
  obtain ⟨popped, pushed, hr, ha⟩ := hinv.shard t ht
  have hbatch := hbatched.length_le t
  have hring := hr.holds.pushed_le
  have hunpushed := length_unpushed_le s t
  have hpopped := congrArg List.length ha.applied
  rw [List.length_append, List.length_take_of_le (hr.holds.popped_le.trans hr.pushed_le)] at hpopped
  have hhand : (inHand (s.consumers t)).length ≤ 1 := by
    unfold inHand
    split
    · exact le_rfl
    · exact Nat.zero_le _
  refine ⟨hbatch, ?_, ?_⟩
  · rw [hr.holds.toNat_available]
    exact Nat.sub_le_iff_le_add'.mpr hring
  · rw [← hr.routed, List.length_append, List.length_take_of_le hr.pushed_le]
    omega

/-- The two orders of two symbols, both routed and not yet pushed. -/
theorem twoOrders_in_flight :
    ∃ s, run (RoutedRun.step twoOrders 2) start [.route, .route] = some s ∧
      (shardOrders 2 (twoOrders.1.take (routedUpTo twoOrders s)) 0).length ≤
        (s.consumers 0).applied.length + 1 + 2 ^ queueExponent + BATCH_SIZE := by
  have hruns : (run (RoutedRun.step twoOrders 2) start [.route, .route]).isSome = true := by decide
  obtain ⟨s, hrun⟩ := Option.isSome_iff_exists.mp hruns
  exact ⟨s, hrun, (in_flight_bounded (by decide) hrun (by decide)).2.2⟩

end RoutedRun

end NanoRing
