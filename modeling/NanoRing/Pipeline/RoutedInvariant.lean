import NanoRing.Pipeline.Routed

/-!
# The invariant of the routed pipeline

The orders of a shard are in four places at any time: applied by its thread, popped and not yet
applied, in its queue, or in its batch. Read in this order they are the orders of the shard
that the producer has routed so far; no step loses or reorders any of them.
-/

namespace NanoRing

namespace RoutedRun

section Invariant

variable {orders : OrderArray} {numThreads : ℕ} {s s' : RoutedRun} {t : ℕ}
  {consumer : RoutedConsumer}

/-- The producer has put the orders below this number into batches. -/
def routedUpTo (orders : OrderArray) (s : RoutedRun) : ℕ :=
  match s.router with
  | .routing i => i
  | .pushing i _ _ => i + 1
  | _ => orders.1.length

/-- What the producer has routed to a shard and not yet pushed. -/
def unpushed (s : RoutedRun) (t : ℕ) : List DecodedOrder :=
  match s.router with
  | .routing _ => s.batches t
  | .pushing _ shard j => if t = shard then (s.batches t).drop j else s.batches t
  | .flushing shard j =>
    if t < shard then [] else if t = shard then (s.batches t).drop j else s.batches t
  | .finished => []

/-- The order that a thread has popped and not yet applied. -/
def inHand (consumer : RoutedConsumer) : List DecodedOrder :=
  match consumer.pc with
  | .applying order => [order]
  | _ => []

/-- The queue of a shard holds the shard's orders, and the batch continues it. -/
structure Routes (orders : OrderArray) (numThreads : ℕ) (s : RoutedRun) (t popped pushed : ℕ) :
    Prop where
  holds : (s.queues t).Holds queueExponent
    (fun i => (shardOrders numThreads orders.1 t).getD i default) popped pushed
  pushed_le : pushed ≤ (shardOrders numThreads orders.1 t).length
  routed : (shardOrders numThreads orders.1 t).take pushed ++ s.unpushed t =
    shardOrders numThreads (orders.1.take (routedUpTo orders s)) t

/-- What a thread has made of the orders that it has popped, and what it knows at its place. -/
structure Applies (orders : OrderArray) (numThreads : ℕ) (s : RoutedRun) (t popped : ℕ)
    (consumer : RoutedConsumer) : Prop where
  applied : consumer.applied ++ inHand consumer =
    (shardOrders numThreads orders.1 t).take popped
  manager : consumer.manager = ShardedBookManager.empty.applyAll consumer.applied
  localCount : consumer.localCount = consumer.applied.length
  done : consumer.pc = .testAvailable → s.producerDone = true
  exited : consumer.pc = .exited →
    consumer.applied = shardOrders numThreads orders.1 t ∧
      s.threadMessageCounts t = consumer.localCount

/-- What holds in every state of a run. -/
structure Inv (orders : OrderArray) (numThreads : ℕ) (s : RoutedRun) : Prop where
  finished_of_done : s.producerDone = true → s.router = .finished
  shard : ∀ t < numThreads, ∃ popped pushed, Routes orders numThreads s t popped pushed ∧
    Applies orders numThreads s t popped (s.consumers t)

theorem start_inv (orders : OrderArray) (numThreads : ℕ) : Inv orders numThreads start where
  finished_of_done := nofun
  shard := fun _ _ => ⟨0, 0, ⟨SpscQueue.empty_holds _ _, Nat.zero_le _, rfl⟩,
    ⟨rfl, rfl, rfl, nofun, nofun⟩⟩

/-- Only its queue and what is still to be pushed matter to the route of a shard. -/
theorem Routes.congr {popped pushed : ℕ} (h : Routes orders numThreads s t popped pushed)
    (hqueue : s'.queues t = s.queues t) (hunpushed : s'.unpushed t = s.unpushed t)
    (hrouted : orders.1.take (routedUpTo orders s') = orders.1.take (routedUpTo orders s)) :
    Routes orders numThreads s' t popped pushed where
  holds := hqueue ▸ h.holds
  pushed_le := h.pushed_le
  routed := by
    rw [hunpushed, hrouted]
    exact h.routed

theorem Applies.congr {popped : ℕ} (h : Applies orders numThreads s t popped consumer)
    (hdone : s.producerDone = true → s'.producerDone = true)
    (hcount : s'.threadMessageCounts t = s.threadMessageCounts t) :
    Applies orders numThreads s' t popped consumer where
  applied := h.applied
  manager := h.manager
  localCount := h.localCount
  done := fun hpc => hdone (h.done hpc)
  exited := fun hpc => hcount ▸ h.exited hpc

/-! ### Steps of the producer -/

/-- Routing an order appends it to the batch of its shard. -/
theorem Routes.append {popped pushed : ℕ} (h : Routes orders numThreads s t popped pushed)
    {order : DecodedOrder} (horder : orders.1[routedUpTo orders s]? = some order)
    (hqueue : s'.queues t = s.queues t)
    (hunpushed : s'.unpushed t =
      if getShard numThreads order.tickerKey = t then s.unpushed t ++ [order] else s.unpushed t)
    (hrouted : routedUpTo orders s' = routedUpTo orders s + 1) :
    Routes orders numThreads s' t popped pushed where
  holds := hqueue ▸ h.holds
  pushed_le := h.pushed_le
  routed := by
    rw [hunpushed, hrouted, List.take_add_one, horder, Option.toList_some, shardOrders_snoc,
      ← h.routed]
    split
    · rw [List.append_assoc]
    · rfl

/-- The next order that is pushed into a queue is the next order of the shard. -/
theorem Routes.next {popped pushed : ℕ} (h : Routes orders numThreads s t popped pushed)
    {msg : DecodedOrder} {rest : List DecodedOrder} (hunpushed : s.unpushed t = msg :: rest) :
    (shardOrders numThreads orders.1 t)[pushed]? = some msg := by
  have hrouted : shardOrders numThreads (orders.1.take (routedUpTo orders s)) t <+:
      shardOrders numThreads orders.1 t := (List.take_prefix _ _).filter _
  rw [← h.routed, hunpushed] at hrouted
  obtain ⟨later, hlater⟩ := hrouted
  rw [← hlater, List.append_assoc, List.getElem?_append_right (List.length_take_le _ _),
    List.length_take_of_le h.pushed_le, Nat.sub_self]
  rfl

theorem Routes.push {popped pushed : ℕ} (h : Routes orders numThreads s t popped pushed)
    {msg : DecodedOrder} {queue : ShardQueue} (hunpushed : s.unpushed t = msg :: s'.unpushed t)
    (hpush : (s.queues t).push queueExponent msg = some queue) (hqueue : s'.queues t = queue)
    (hrouted : routedUpTo orders s' = routedUpTo orders s) :
    Routes orders numThreads s' t popped (pushed + 1) := by
  have hnext := h.next hunpushed
  obtain ⟨hlt, -⟩ := List.getElem?_eq_some_iff.mp hnext
  have hitem : (shardOrders numThreads orders.1 t).getD pushed default = msg := by
    rw [List.getD_eq_getElem?_getD, hnext, Option.getD_some]
  have hbound : pushed + 1 < 2 ^ 64 :=
    (Nat.succ_le_of_lt hlt).trans_lt ((List.length_filter_le _ _).trans_lt orders.2)
  rw [← hitem] at hpush
  refine ⟨?_, hlt, ?_⟩
  · rw [hqueue]
    exact (h.holds.push (by decide) hbound hpush).1
  · rw [hrouted, ← h.routed, hunpushed, List.take_add_one, hnext, Option.toList_some,
      List.append_assoc, List.singleton_append]

/-- A step of the producer keeps the invariant when it keeps what is known of every shard. -/
theorem Inv.ofRouter (h : Inv orders numThreads s) (hconsumers : s'.consumers = s.consumers)
    (hcounts : s'.threadMessageCounts = s.threadMessageCounts)
    (hdone : s'.producerDone = true → s'.router = .finished)
    (hkeep : s.producerDone = true → s'.producerDone = true)
    (hroutes : ∀ t < numThreads, ∀ popped pushed, Routes orders numThreads s t popped pushed →
      ∃ pushed', Routes orders numThreads s' t popped pushed') : Inv orders numThreads s' where
  finished_of_done := hdone
  shard := fun t ht => by
    obtain ⟨popped, pushed, hr, ha⟩ := h.shard t ht
    obtain ⟨pushed', hr'⟩ := hroutes t ht popped pushed hr
    exact ⟨popped, pushed', hr', hconsumers ▸ ha.congr hkeep (congrFun hcounts t)⟩

/-- The flag is not set before the producer has finished. -/
theorem Inv.not_done (h : Inv orders numThreads s) (hrouter : s.router ≠ .finished)
    {p : Prop} (hdone : s.producerDone = true) : p :=
  absurd (h.finished_of_done hdone) hrouter

theorem Inv.pushInto (h : Inv orders numThreads s) (hrouter : s.router ≠ .finished) {shard : ℕ}
    {msg : DecodedOrder} {next : RouterPc}
    (hunpushed : s.unpushed shard = msg :: unpushed { s with router := next } shard)
    (hother : ∀ t ≠ shard, unpushed { s with router := next } t = s.unpushed t)
    (hrouted : routedUpTo orders { s with router := next } = routedUpTo orders s)
    (hstep : s.pushInto shard msg next = some s') : Inv orders numThreads s' := by
  obtain ⟨queue, hpush, rfl⟩ := Option.map_eq_some_iff.mp hstep
  refine h.ofRouter rfl rfl (h.not_done hrouter) id fun t _ popped pushed hr => ?_
  by_cases ht : t = shard
  · subst ht
    exact ⟨pushed + 1, hr.push hunpushed hpush (Function.update_self _ _ _) hrouted⟩
  · exact ⟨pushed, hr.congr (Function.update_of_ne ht _ _) (hother t ht)
      (congrArg orders.1.take hrouted)⟩

/-- Routing an order puts it into the batch of its shard. -/
theorem Inv.append (h : Inv orders numThreads s) {i : ℕ} (hrouter : s.router = .routing i)
    {order : DecodedOrder} (horder : orders.1[i]? = some order) {next : RouterPc}
    (hnext : next = .routing (i + 1) ∨
      next = .pushing i (getShard numThreads order.tickerKey) 0) :
    let shard := getShard numThreads order.tickerKey
    Inv orders numThreads
      { s.setBatch shard (s.batches shard ++ [order]) with router := next } := by
  intro shard
  refine h.ofRouter rfl rfl (h.not_done (hrouter ▸ nofun)) id fun t _ popped pushed hr => ?_
  have hbefore : routedUpTo orders s = i := by rw [routedUpTo, hrouter]
  have hbatches : s.unpushed t = s.batches t := by rw [unpushed, hrouter]
  have hbatch : Function.update s.batches shard (s.batches shard ++ [order]) t =
      if shard = t then s.batches t ++ [order] else s.batches t := by
    by_cases ht : shard = t
    · rw [if_pos ht, ← ht, Function.update_self]
    · rw [if_neg ht, Function.update_of_ne (Ne.symm ht)]
  refine ⟨pushed, hr.append (hbefore ▸ horder) rfl ?_ ?_⟩
  · rw [hbatches, ← hbatch]
    rcases hnext with rfl | rfl
    · rfl
    · simp only [unpushed, setBatch, List.drop_zero, ite_self]
  · rw [hbefore]
    rcases hnext with rfl | rfl <;> rfl

/-- What is left of a batch after its next order is pushed. -/
theorem drop_eq_cons {batch : List DecodedOrder} {j : ℕ} {msg : DecodedOrder}
    (h : batch[j]? = some msg) : batch.drop j = msg :: batch.drop (j + 1) := by
  obtain ⟨hlt, hmsg⟩ := List.getElem?_eq_some_iff.mp h
  rw [List.drop_eq_getElem_cons hlt, hmsg]

/-- A step that moves the producer without pushing keeps the invariant when it leaves the same
orders to be pushed. -/
theorem Inv.moveRouter (h : Inv orders numThreads s) (hrouter : s.router ≠ .finished)
    {next : RouterPc} {batches : ℕ → List DecodedOrder}
    (hunpushed : ∀ t, unpushed { s with router := next, batches := batches } t = s.unpushed t)
    (hrouted : orders.1.take (routedUpTo orders { s with router := next, batches := batches }) =
      orders.1.take (routedUpTo orders s)) :
    Inv orders numThreads { s with router := next, batches := batches } :=
  h.ofRouter rfl rfl (h.not_done hrouter) id fun t _ _ pushed hr =>
    ⟨pushed, hr.congr rfl (hunpushed t) hrouted⟩

/-- After the last order the flush starts with the first shard. -/
theorem Inv.startFlush (h : Inv orders numThreads s) {i : ℕ} (hrouter : s.router = .routing i)
    (hend : orders.1[i]? = none) : Inv orders numThreads { s with router := .flushing 0 0 } := by
  refine h.moveRouter (hrouter ▸ nofun) (fun t => ?_) ?_
  · simp only [unpushed, hrouter, List.drop_zero, ite_self, Nat.not_lt_zero, if_false]
  · simp only [routedUpTo, hrouter, List.take_length]
    exact (List.take_of_length_le (List.getElem?_eq_none_iff.mp hend)).symm

/-- A batch that has been pushed is cleared. -/
theorem Inv.clearBatch (h : Inv orders numThreads s) {i shard j : ℕ}
    (hrouter : s.router = .pushing i shard j) (hend : (s.batches shard)[j]? = none) :
    Inv orders numThreads { s.setBatch shard [] with router := .routing (i + 1) } := by
  refine h.moveRouter (hrouter ▸ nofun) (fun t => ?_) ?_
  · simp only [unpushed, hrouter, setBatch]
    by_cases ht : t = shard
    · subst ht
      rw [if_pos rfl, Function.update_self,
        List.drop_of_length_le (List.getElem?_eq_none_iff.mp hend)]
    · rw [if_neg ht, Function.update_of_ne ht]
  · simp only [routedUpTo, hrouter]

/-- A batch that has been flushed leaves nothing of its shard to be pushed. -/
theorem Inv.nextShard (h : Inv orders numThreads s) {shard j : ℕ}
    (hrouter : s.router = .flushing shard j) (hend : (s.batches shard)[j]? = none) :
    Inv orders numThreads { s with router := .flushing (shard + 1) 0 } := by
  refine h.moveRouter (hrouter ▸ nofun) (fun t => ?_) ?_
  · simp only [unpushed, hrouter, List.drop_zero, ite_self]
    rcases Nat.lt_trichotomy t shard with hlt | rfl | hgt
    · rw [if_pos (hlt.trans (Nat.lt_succ_self _)), if_pos hlt]
    · rw [if_pos (Nat.lt_succ_self _), if_neg (lt_irrefl _), if_pos rfl,
        List.drop_of_length_le (List.getElem?_eq_none_iff.mp hend)]
    · rw [if_neg (Nat.not_lt.mpr hgt), if_neg hgt.asymm, if_neg hgt.ne']
  · simp only [routedUpTo, hrouter]

/-- After the last shard nothing is left to be pushed, and the flag is set. -/
theorem Inv.finish (h : Inv orders numThreads s) {shard j : ℕ}
    (hrouter : s.router = .flushing shard j) (hlast : numThreads ≤ shard) :
    Inv orders numThreads { s with router := .finished, producerDone := true } := by
  refine h.ofRouter rfl rfl (fun _ => rfl) (fun _ => rfl) fun t ht popped pushed hr => ?_
  refine ⟨pushed, hr.congr rfl ?_ ?_⟩
  · simp only [unpushed, hrouter]
    rw [if_pos (ht.trans_le hlast)]
  · simp only [routedUpTo, hrouter]

theorem Inv.routeStep (h : Inv orders numThreads s)
    (hstep : s.routeStep orders numThreads = some s') : Inv orders numThreads s' := by
  unfold RoutedRun.routeStep at hstep
  cases hrouter : s.router with
  | routing i =>
    simp only [hrouter] at hstep
    split at hstep
    · rename_i order horder
      split at hstep
      · obtain rfl := Option.some.inj hstep
        exact h.append hrouter horder (.inr rfl)
      · obtain rfl := Option.some.inj hstep
        exact h.append hrouter horder (.inl rfl)
    · rename_i hend
      obtain rfl := Option.some.inj hstep
      exact h.startFlush hrouter hend
  | pushing i shard j =>
    simp only [hrouter] at hstep
    split at hstep
    · rename_i msg hmsg
      refine h.pushInto (hrouter ▸ nofun) ?_ (fun t ht => ?_) ?_ hstep
      · simp only [unpushed, hrouter, if_true]
        exact drop_eq_cons hmsg
      · simp only [unpushed, hrouter, if_neg ht]
      · simp only [routedUpTo, hrouter]
    · rename_i hend
      obtain rfl := Option.some.inj hstep
      exact h.clearBatch hrouter hend
  | flushing shard j =>
    simp only [hrouter] at hstep
    split at hstep
    · split at hstep
      · rename_i msg hmsg
        refine h.pushInto (hrouter ▸ nofun) ?_ (fun t ht => ?_) ?_ hstep
        · simp only [unpushed, hrouter, lt_irrefl, if_false, if_true]
          exact drop_eq_cons hmsg
        · simp only [unpushed, hrouter, if_neg ht]
        · simp only [routedUpTo, hrouter]
      · rename_i hend
        obtain rfl := Option.some.inj hstep
        exact h.nextShard hrouter hend
    · rename_i hlast
      obtain rfl := Option.some.inj hstep
      exact h.finish hrouter (Nat.le_of_not_lt hlast)
  | finished =>
    simp only [hrouter] at hstep
    contradiction

/-! ### Steps of a book thread -/

@[simp] theorem setConsumer_self (s : RoutedRun) (t : ℕ) (consumer : RoutedConsumer) :
    (s.setConsumer t consumer).consumers t = consumer := Function.update_self _ _ _

theorem setConsumer_of_ne {t' : ℕ} (h : t' ≠ t) (consumer : RoutedConsumer) :
    (s.setConsumer t consumer).consumers t' = s.consumers t' := Function.update_of_ne h _ _

/-- A step of one thread keeps the invariant when it keeps what is known of that thread. -/
theorem Inv.setConsumer (h : Inv orders numThreads s)
    (happlies : ∀ popped pushed, Routes orders numThreads s t popped pushed →
      Applies orders numThreads s t popped (s.consumers t) →
      Applies orders numThreads s t popped consumer) :
    Inv orders numThreads (s.setConsumer t consumer) where
  finished_of_done := h.finished_of_done
  shard := fun t' ht' => by
    obtain ⟨popped, pushed, hr, ha⟩ := h.shard t' ht'
    refine ⟨popped, pushed, hr.congr rfl rfl rfl, ?_⟩
    by_cases htt : t' = t
    · subst htt
      rw [setConsumer_self]
      exact (happlies popped pushed hr ha).congr id rfl
    · rw [setConsumer_of_ne htt]
      exact ha.congr id rfl

/-- A thread may go to a place in its loop at which it holds no order. -/
theorem Inv.setPc (h : Inv orders numThreads s) {pc : RoutedConsumerPc}
    (hhand : inHand (s.consumers t) = [])
    (hhand' : inHand { s.consumers t with pc := pc } = [])
    (hdone : pc = .testAvailable → s.producerDone = true) (hexited : pc ≠ .exited) :
    Inv orders numThreads (s.setConsumer t { s.consumers t with pc := pc }) := by
  refine h.setConsumer fun popped pushed _ ha => ?_
  refine ⟨?_, ha.manager, ha.localCount, hdone, fun hpc => absurd hpc hexited⟩
  rw [hhand', ← hhand]
  exact ha.applied

/-- A pop hands the thread the next order of its shard. -/
theorem Inv.pop (h : Inv orders numThreads s) (hpc : (s.consumers t).pc = .popping)
    {order : DecodedOrder} {queue : ShardQueue}
    (hpop : (s.queues t).tryPop queueExponent = some (order, queue)) :
    Inv orders numThreads
      ((s.setQueue t queue).setConsumer t { s.consumers t with pc := .applying order }) where
  finished_of_done := h.finished_of_done
  shard := fun t' ht' => by
    obtain ⟨popped, pushed, hr, ha⟩ := h.shard t' ht'
    by_cases htt : t' = t
    · subst htt
      obtain ⟨hlt, hitem, hholds⟩ := hr.holds.tryPop (by decide) hpop
      have happlied := ha.applied
      rw [inHand, hpc, List.append_nil] at happlied
      refine ⟨popped + 1, pushed, ⟨?_, hr.pushed_le, hr.routed⟩, ?_⟩
      · change (Function.update s.queues t' queue t').Holds _ _ _ _
        rw [Function.update_self]
        exact hholds
      · rw [setConsumer_self]
        refine ⟨?_, ha.manager, ha.localCount, nofun, nofun⟩
        have hlength := hlt.trans_le hr.pushed_le
        change (s.consumers t').applied ++ [order] = _
        rw [happlied, List.take_add_one, hitem, List.getD_eq_getElem?_getD,
          List.getElem?_eq_getElem hlength, Option.getD_some, Option.toList_some]
    · refine ⟨popped, pushed, hr.congr (Function.update_of_ne htt _ _) rfl rfl, ?_⟩
      rw [setConsumer_of_ne htt]
      exact ha.congr id rfl

/-- Applying the order in hand moves it to the orders that are applied. -/
theorem Inv.apply (h : Inv orders numThreads s) {order : DecodedOrder}
    (hpc : (s.consumers t).pc = .applying order) :
    Inv orders numThreads (s.setConsumer t
      { pc := .popping
        localCount := (s.consumers t).localCount + 1
        manager := (s.consumers t).manager.apply order
        applied := (s.consumers t).applied ++ [order] }) := by
  refine h.setConsumer fun popped pushed _ ha => ?_
  have happlied := ha.applied
  rw [inHand, hpc] at happlied
  refine ⟨?_, ?_, ?_, nofun, nofun⟩
  · rw [← happlied]
    exact List.append_nil _
  · rw [ShardedBookManager.applyAll_snoc, ← ha.manager]
  · rw [List.length_append, List.length_singleton, ha.localCount]

/-- A thread that has not left its loop may record its count. -/
theorem Inv.recordCount (h : Inv orders numThreads s) (hpc : (s.consumers t).pc ≠ .exited)
    (count : ℕ) :
    Inv orders numThreads
      { s with threadMessageCounts := Function.update s.threadMessageCounts t count } where
  finished_of_done := h.finished_of_done
  shard := fun t' ht' => by
    obtain ⟨popped, pushed, hr, ha⟩ := h.shard t' ht'
    refine ⟨popped, pushed, hr.congr rfl rfl rfl,
      ⟨ha.applied, ha.manager, ha.localCount, ha.done, fun hpc' => ?_⟩⟩
    have htt : t' ≠ t := by
      rintro rfl
      exact hpc hpc'
    obtain ⟨happlied, hcount⟩ := ha.exited hpc'
    exact ⟨happlied, (Function.update_of_ne htt _ _).trans hcount⟩

/-- Once the producer is done, the queue of a shard has been given all of its orders. -/
theorem Inv.pushed_eq (h : Inv orders numThreads s) (hdone : s.producerDone = true)
    {popped pushed : ℕ} (hr : Routes orders numThreads s t popped pushed) :
    pushed = (shardOrders numThreads orders.1 t).length := by
  have hfinished := h.finished_of_done hdone
  have hrouted := hr.routed
  rw [unpushed, routedUpTo, hfinished, List.append_nil] at hrouted
  dsimp only at hrouted
  rw [List.take_length] at hrouted
  have hlength := congrArg List.length hrouted
  rw [List.length_take_of_le hr.pushed_le] at hlength
  exact hlength

end Invariant

end RoutedRun

end NanoRing
