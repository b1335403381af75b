import NanoRing.Pipeline.OrderedRouted

/-!
# What the threads of the routed pipeline know

Both sides of a queue publish how far they have come, and the flag tells of every push. With it the
accesses of the producer keep the pipeline what it is when all loads are of the last stores.
-/

namespace NanoRing

open MemoryOrder Schedule

/-! ## What is known of a shard -/

/-- Both sides of the queue of a shard publish how far they have come, `filling` and `emptying` counting
a copy whose index is not yet stored; and whoever has seen the flag knows of every push. -/
structure ShardMemory (m : RoutedMemory) (t pushed filling popped emptying : ℕ) : Prop where
  fills : Publishes m .producer (.queue t .head) (fun slot => .queue t (.copiedIn slot))
    (fun j => j % 2 ^ queueExponent) (position 64) pushed (pushed + filling)
  empties : Publishes m (.book t) (.queue t .tail) (fun slot => .queue t (.copiedOut slot))
    (fun j => j % 2 ^ queueExponent) (position 64) popped (popped + emptying)
  told : m.Everywhere (Tells .done (.queue t .head) pushed)

namespace RoutedPlace

theorem queue_ne {t t' : ℕ} (h : t ≠ t') (place place' : QueuePlace) :
    queue t place ≠ queue t' place' := fun heq => h (RoutedPlace.queue.inj heq).1

theorem queue_place_ne {place place' : QueuePlace} (h : place ≠ place') (t : ℕ) :
    queue t place ≠ queue t place' := fun heq => h (RoutedPlace.queue.inj heq).2

theorem queue_ne_done (t : ℕ) (place : QueuePlace) : queue t place ≠ done := by
  intro h
  cases h

end RoutedPlace

namespace ShardMemory

variable {m : RoutedMemory} {t t' pushed filling popped emptying i : ℕ} {thread : PipelineThread}
  {p : RoutedPlace} {place : QueuePlace} {v : BitVec 64}

theorem start (t : ℕ) : ShardMemory (.start fun _ => 0) t 0 0 0 0 where
  fills := start_publishes rfl
  empties := start_publishes rfl
  told := (Memory.start_past _).tells rfl

theorem acquire (h : ShardMemory m t pushed filling popped emptying) :
    ShardMemory (m.acquire thread p i) t pushed filling popped emptying where
  fills := h.fills.acquire
  empties := h.empties.acquire
  told := h.told.acquire (supClosed_tells _ _ _)

/-- Another queue is no concern of the shard. -/
theorem event_other (h : ShardMemory m t pushed filling popped emptying) (hpast : m.Past)
    (hne : t ≠ t') :
    ShardMemory (m.event thread (.queue t' place)) t pushed filling popped emptying where
  fills := h.fills.event_of_ne hpast (RoutedPlace.queue_ne hne _ _)
    fun _ => RoutedPlace.queue_ne hne _ _
  empties := h.empties.event_of_ne hpast (RoutedPlace.queue_ne hne _ _)
    fun _ => RoutedPlace.queue_ne hne _ _
  told := h.told.tells_event hpast (RoutedPlace.queue_ne_done _ _)

theorem storeRelease_other (h : ShardMemory m t pushed filling popped emptying) (hpast : m.Past)
    (hne : t ≠ t') :
    ShardMemory (m.storeRelease thread (.queue t' place) v) t pushed filling popped emptying where
  fills := h.fills.storeRelease_of_ne hpast (RoutedPlace.queue_ne hne _ _)
    fun _ => RoutedPlace.queue_ne hne _ _
  empties := h.empties.storeRelease_of_ne hpast (RoutedPlace.queue_ne hne _ _)
    fun _ => RoutedPlace.queue_ne hne _ _
  told := (h.told.tells_event hpast (RoutedPlace.queue_ne_done _ _)).storeRelease

theorem copyIn (h : ShardMemory m t pushed 0 popped emptying) (hpast : m.Past) :
    ShardMemory (m.event .producer (.queue t (.copiedIn (pushed % 2 ^ queueExponent)))) t
      pushed 1 popped emptying where
  fills := h.fills.access_next hpast
    (fun _ _ heq => QueuePlace.copiedIn.inj (RoutedPlace.queue.inj heq).2)
    fun slot => RoutedPlace.queue_place_ne (QueuePlace.copiedIn_ne_head slot) t
  empties := h.empties.event_of_ne hpast
    (RoutedPlace.queue_place_ne (QueuePlace.copiedIn_ne_tail _).symm t)
    fun slot => RoutedPlace.queue_place_ne (QueuePlace.copiedOut_ne_copiedIn slot _) t
  told := h.told.tells_event hpast (RoutedPlace.queue_ne_done _ _)

/-- A push before the flag is stored. -/
theorem storeHead (h : ShardMemory m t pushed 1 popped emptying) (hpast : m.Past)
    (hnone : m.now .done = 0) (hvalue : v = position 64 (pushed + 1)) :
    ShardMemory (m.storeRelease .producer (.queue t .head) v) t (pushed + 1) 0 popped emptying where
  fills := h.fills.store_next
    (fun slot => RoutedPlace.queue_place_ne (QueuePlace.copiedIn_ne_head slot) t) le_rfl hvalue
  empties := h.empties.storeRelease_of_ne hpast
    (RoutedPlace.queue_place_ne (by decide) t)
    fun slot => RoutedPlace.queue_place_ne (QueuePlace.copiedOut_ne_head slot) t
  told := hpast.storeRelease.tells
    ((Memory.storeRelease_now_of_ne (RoutedPlace.queue_ne_done _ _).symm).trans hnone)

theorem copyOut (h : ShardMemory m t pushed filling popped 0) (hpast : m.Past) :
    ShardMemory (m.event (.book t) (.queue t (.copiedOut (popped % 2 ^ queueExponent)))) t
      pushed filling popped 1 where
  fills := h.fills.event_of_ne hpast
    (RoutedPlace.queue_place_ne (QueuePlace.copiedOut_ne_head _).symm t)
    fun slot => RoutedPlace.queue_place_ne (QueuePlace.copiedOut_ne_copiedIn _ slot).symm t
  empties := h.empties.access_next hpast
    (fun _ _ heq => QueuePlace.copiedOut.inj (RoutedPlace.queue.inj heq).2)
    fun slot => RoutedPlace.queue_place_ne (QueuePlace.copiedOut_ne_tail slot) t
  told := h.told.tells_event hpast (RoutedPlace.queue_ne_done _ _)

theorem storeTail (h : ShardMemory m t pushed filling popped 1) (hpast : m.Past)
    (hvalue : v = position 64 (popped + 1)) :
    ShardMemory (m.storeRelease (.book t) (.queue t .tail) v) t pushed filling (popped + 1) 0 where
  fills := h.fills.storeRelease_of_ne hpast
    (RoutedPlace.queue_place_ne (by decide) t)
    fun slot => RoutedPlace.queue_place_ne (QueuePlace.copiedIn_ne_tail slot) t
  empties := h.empties.store_next
    (fun slot => RoutedPlace.queue_place_ne (QueuePlace.copiedOut_ne_tail slot) t) le_rfl hvalue
  told := (h.told.tells_event hpast (RoutedPlace.queue_ne_done _ _)).storeRelease

/-- When it stores the flag, the producer knows of all its pushes. -/
theorem storeDone (h : ShardMemory m t pushed filling popped emptying) (hpast : m.Past) :
    ShardMemory (m.storeRelease .producer .done v) t pushed filling popped emptying where
  fills := h.fills.storeRelease_of_ne hpast (RoutedPlace.queue_ne_done _ _)
    fun _ => RoutedPlace.queue_ne_done _ _
  empties := h.empties.storeRelease_of_ne hpast (RoutedPlace.queue_ne_done _ _)
    fun _ => RoutedPlace.queue_ne_done _ _
  told := h.told.tells_raise (RoutedPlace.queue_ne_done _ _)
    (h.fills.index_now.symm.trans_le h.fills.own_index)

end ShardMemory

namespace OrderedRoutedRun

variable {orders : OrderArray} {numThreads : ℕ} {s s' : OrderedRoutedRun} {t i : ℕ}

/-! ### The invariant -/

/-- A slot that is about to be copied into is free in an index that the producer has loaded. -/
def RoomSeen (s : OrderedRoutedRun) : Prop :=
  match s.accesses.push with
  | .copyIn call _ => (s.accesses.pipeline.queues call.shard).head.toNat <
      s.memory.seen .producer (.queue call.shard .tail) + 2 ^ queueExponent
  | _ => True

/-- A slot that is about to be copied out of is filled in an index that its thread has loaded. -/
def ItemSeen (s : OrderedRoutedRun) (t : ℕ) : Prop :=
  match s.accesses.pop t with
  | .copyOut _ => (s.accesses.pipeline.queues t).tail.toNat <
      s.memory.seen (.book t) (.queue t .head)
  | _ => True

theorem itemSeen_of_pop {pop : PopAccess} (hpop : s.accesses.pop t = pop)
    (hother : ∀ tail, pop ≠ .copyOut tail) : ItemSeen s t := by
  unfold ItemSeen
  split
  · rename_i tail hcopy
    exact absurd (hpop.symm.trans hcopy) (hother tail)
  · trivial

/-- What holds in every state. The accesses are those of a pipeline that takes its calls in one step
each, though maybe not the calls that find the queue empty or the flag not set. -/
structure Inv (orders : OrderArray) (numThreads : ℕ) (s : OrderedRoutedRun) : Prop where
  refines : ∃ c, AccessRun.Refines orders numThreads s.accesses c ∧ c.Batched orders numThreads
  past : s.memory.Past
  flag : Counts s.memory .producer .done (position 64) s.accesses.pipeline.producerDone.toNat
  shard : ∀ t < numThreads, ShardMemory s.memory t (s.accesses.pipeline.queues t).head.toNat
    (s.accesses.push.filling t) (s.accesses.pipeline.queues t).tail.toNat (s.accesses.pop t).emptying
  room : RoomSeen s
  item : ∀ t < numThreads, ItemSeen s t
  told : ∀ t < numThreads, (s.accesses.pipeline.consumers t).pc = .testAvailable →
    1 ≤ s.memory.seen (.book t) .done

theorem start_inv (orders : OrderArray) (numThreads : ℕ) : Inv orders numThreads start where
  refines := ⟨_, AccessRun.start_refines orders numThreads, RoutedRun.start_batched orders numThreads⟩
  past := Memory.start_past _
  flag := start_counts rfl
  shard := fun t _ => ShardMemory.start t
  room := trivial
  item := fun _ _ => trivial
  told := fun _ _ hpc => by cases hpc

theorem RoomSeen.mono (h : RoomSeen s) (hpush : s'.accesses.push = s.accesses.push)
    (hhead : ∀ t, (s'.accesses.pipeline.queues t).head = (s.accesses.pipeline.queues t).head)
    (hseen : ∀ p, s.memory.seen .producer p ≤ s'.memory.seen .producer p) : RoomSeen s' := by
  unfold RoomSeen at h ⊢
  rw [hpush]
  split at h
  · rw [hhead]
    exact h.trans_le (Nat.add_le_add_right (hseen _) _)
  · trivial

theorem ItemSeen.mono (h : ItemSeen s t) (hpop : s'.accesses.pop t = s.accesses.pop t)
    (htail : (s'.accesses.pipeline.queues t).tail = (s.accesses.pipeline.queues t).tail)
    (hseen : ∀ p, s.memory.seen (.book t) p ≤ s'.memory.seen (.book t) p) : ItemSeen s' t := by
  unfold ItemSeen at h ⊢
  rw [hpop, htail]
  split at h
  · exact h.trans_le (hseen _)
  · trivial

/-- An access of the producer leaves alone what the book threads have found. -/
theorem Inv.moveProducer (h : Inv orders numThreads s) {a : AccessRun} {m : RoutedMemory}
    (hrefines : ∃ c, AccessRun.Refines orders numThreads a c ∧ c.Batched orders numThreads)
    (hpop : a.pop = s.accesses.pop) (hconsumers : a.pipeline.consumers = s.accesses.pipeline.consumers)
    (htail : ∀ t, (a.pipeline.queues t).tail = (s.accesses.pipeline.queues t).tail)
    (hpast : m.Past) (hseen : ∀ thread p, s.memory.seen thread p ≤ m.seen thread p)
    (hflag : Counts m .producer .done (position 64) a.pipeline.producerDone.toNat)
    (hshard : ∀ t < numThreads, ShardMemory m t (a.pipeline.queues t).head.toNat
      (a.push.filling t) (s.accesses.pipeline.queues t).tail.toNat (s.accesses.pop t).emptying)
    (hroom : RoomSeen ⟨a, m⟩) : Inv orders numThreads ⟨a, m⟩ where
  refines := hrefines
  past := hpast
  flag := hflag
  shard := fun t ht => by
    rw [hpop, htail]
    exact hshard t ht
  room := hroom
  item := fun t ht => (h.item t ht).mono (congrFun hpop t) (htail t) (hseen _)
  told := fun t ht hpc => by
    rw [hconsumers] at hpc
    exact (h.told t ht hpc).trans (hseen _ _)

/-- An access of a book thread leaves alone what the others have found. -/
theorem Inv.moveThread (h : Inv orders numThreads s) {a : AccessRun} {m : RoutedMemory}
    (hrefines : ∃ c, AccessRun.Refines orders numThreads a c ∧ c.Batched orders numThreads)
    (hpush : a.push = s.accesses.push)
    (hdone : a.pipeline.producerDone = s.accesses.pipeline.producerDone)
    (hhead : ∀ t, (a.pipeline.queues t).head = (s.accesses.pipeline.queues t).head)
    (hother : ∀ t' ≠ t, a.pop t' = s.accesses.pop t' ∧
      (a.pipeline.consumers t').pc = (s.accesses.pipeline.consumers t').pc ∧
      (a.pipeline.queues t').tail = (s.accesses.pipeline.queues t').tail)
    (hpast : m.Past) (hseen : ∀ thread p, s.memory.seen thread p ≤ m.seen thread p)
    (hflag : Counts m .producer .done (position 64) s.accesses.pipeline.producerDone.toNat)
    (hshard : ∀ t' < numThreads, ShardMemory m t' (s.accesses.pipeline.queues t').head.toNat
      (s.accesses.push.filling t') (a.pipeline.queues t').tail.toNat (a.pop t').emptying)
    (hitem : ItemSeen ⟨a, m⟩ t)
    (htold : (a.pipeline.consumers t).pc = .testAvailable → 1 ≤ m.seen (.book t) .done) :
    Inv orders numThreads ⟨a, m⟩ where
  refines := hrefines
  past := hpast
  flag := by
    rw [hdone]
    exact hflag
  shard := fun t' ht' => by
    rw [hpush, hhead]
    exact hshard t' ht'
  room := h.room.mono hpush hhead (hseen _)
  item := fun t' ht' => by
    by_cases ht : t' = t
    · subst ht
      exact hitem
    · obtain ⟨hpop, -, htail⟩ := hother t' ht
      exact (h.item t' ht').mono hpop htail (hseen _)
  told := fun t' ht' hpc => by
    by_cases ht : t' = t
    · subst ht
      exact htold hpc
    · rw [(hother t' ht).2.1] at hpc
      exact (h.told t' ht' hpc).trans (hseen _ _)

/-! ### Accesses of the producer -/

theorem Inv.refines_route (h : Inv orders numThreads s) (hthreads : 1 ≤ numThreads) {a : AccessRun}
    (hstep : s.accesses.routeStep orders numThreads = some a) :
    ∃ c, AccessRun.Refines orders numThreads a c ∧ c.Batched orders numThreads := by
  obtain ⟨c, hrefines, hbatched⟩ := h.refines
  obtain ⟨hsame, -⟩ | ⟨c', hroute, hmoved⟩ := hrefines.route hstep
  · exact ⟨c, hsame, hbatched⟩
  · exact ⟨c', hmoved, hbatched.routeMoves hthreads (RoutedRun.routeMoves_of_routeStep hroute)⟩

/-- The shard of a push is one of the pipeline. -/
theorem Inv.shard_lt (h : Inv orders numThreads s) {call : PushOrder}
    (hcall : ∀ c, AccessRun.Refines orders numThreads s.accesses c →
      c.pushCall numThreads = some call) : call.shard < numThreads := by
  obtain ⟨c, hrefines, hbatched⟩ := h.refines
  exact hbatched.shard_lt (hcall c hrefines)

/-- A call loads the write position that the producer has stored last. -/
theorem Inv.called (h : Inv orders numThreads s) (hthreads : 1 ≤ numThreads) {call : PushOrder}
    {head : BitVec 64} {m : RoutedMemory} (hpush : s.accesses.push = .outside)
    (hcall : s.accesses.pipeline.pushCall numThreads = some call)
    (hload : s.memory.loadRelaxed .producer (.queue call.shard .head) i = some (head, m)) :
    Inv orders numThreads ⟨{ s.accesses with push := .loadTail call head }, m⟩ := by
  have ht : call.shard < numThreads := h.shard_lt fun c hrefines => by
    have hmemory := hrefines.memory
    rw [hpush] at hmemory
    rw [hmemory] at hcall
    exact hcall
  obtain ⟨rfl, rfl⟩ := (h.shard _ ht).fills.loadRelaxed hload
  rw [← SpscQueue.eq_position]
  have hstep : s.accesses.routeStep orders numThreads = some { s.accesses with
      push := .loadTail call (s.accesses.pipeline.queues call.shard).head } := by
    simp only [AccessRun.routeStep, hpush, hcall]
  have hshard := h.shard
  rw [hpush] at hshard
  exact h.moveProducer (h.refines_route hthreads hstep) rfl rfl (fun _ => rfl) h.past
    (fun _ _ => le_rfl) h.flag hshard trivial

/-- The flag is stored in the step that finishes, and in no other. -/
theorem Inv.routed (h : Inv orders numThreads s) (hthreads : 1 ≤ numThreads) {pipeline : RoutedRun}
    (hpush : s.accesses.push = .outside)
    (hcall : s.accesses.pipeline.pushCall numThreads = none)
    (hroute : s.accesses.pipeline.routeStep orders numThreads = some pipeline) :
    Inv orders numThreads ⟨{ s.accesses with pipeline := pipeline },
      if pipeline.producerDone then s.memory.storeRelease .producer .done 1 else s.memory⟩ := by
  obtain ⟨hconsumers, hqueues⟩ := RoutedRun.routeStep_of_no_pushCall hcall hroute
  have hstep : s.accesses.routeStep orders numThreads =
      some { s.accesses with pipeline := pipeline } := by
    simp only [AccessRun.routeStep, hpush, hcall, hroute, Option.map_some]
  have hnone : s.accesses.pipeline.producerDone = false := by
    obtain ⟨c, hrefines, -⟩ := h.refines
    rw [Bool.eq_false_iff, hrefines.producerDone_eq]
    intro hdone
    have hmemory := hrefines.memory
    rw [hpush] at hmemory
    rw [hmemory] at hroute
    change c.routeStep orders numThreads = some pipeline at hroute
    rw [RoutedRun.routeStep, hrefines.inv.finished_of_done hdone] at hroute
    contradiction
  have hflag := h.flag
  rw [hnone] at hflag
  have htail : ∀ t, (pipeline.queues t).tail = (s.accesses.pipeline.queues t).tail :=
    fun t => congrArg SpscQueue.tail (congrFun hqueues t)
  have hrefines := h.refines_route hthreads hstep
  have hroom : ∀ m, RoomSeen ⟨{ s.accesses with pipeline := pipeline }, m⟩ := by
    intro m
    rw [RoomSeen, hpush]
    trivial
  cases hdone : pipeline.producerDone with
  | true =>
    rw [if_pos rfl]
    refine h.moveProducer hrefines rfl hconsumers htail h.past.storeRelease
      (fun thread p => h.past.seen_le_storeRelease thread p) ?_ (fun t ht => ?_) (hroom _)
    · rw [hdone]
      exact hflag.store_next rfl
    · rw [congrFun hqueues t]
      exact (h.shard t ht).storeDone h.past
  | false =>
    rw [if_neg Bool.false_ne_true]
    refine h.moveProducer hrefines rfl hconsumers htail h.past (fun _ _ => le_rfl) ?_
      (fun t ht => ?_) (hroom _)
    · rw [hdone]
      exact hflag
    · rw [congrFun hqueues t]
      exact h.shard t ht

/-- The producer's test of an old index of a thread. -/
theorem Inv.isFull_position (h : Inv orders numThreads s) (ht : t < numThreads)
    (hle : i ≤ (s.accesses.pipeline.queues t).tail.toNat) :
    SpscQueue.isFull queueExponent (s.accesses.pipeline.queues t).head (position 64 i) = true ↔
      i + 2 ^ queueExponent ≤ (s.accesses.pipeline.queues t).head.toNat := by
  obtain ⟨c, hrefines, -⟩ := h.refines
  have hi := SpscQueue.toNat_position (hle.trans_lt (s.accesses.pipeline.queues t).tail.isLt)
  have hbehind : position 64 i ≤ (s.accesses.pipeline.queues t).head := by
    rw [BitVec.le_def, hi]
    exact hle.trans (hrefines.tail_le_head ht)
  rw [SpscQueue.isFull_iff_toNat (by decide) hbehind, hi]

/-- Room in an old index is room. -/
theorem Inv.testedRoom (h : Inv orders numThreads s) (hthreads : 1 ≤ numThreads) {call : PushOrder}
    {head tail : BitVec 64} {m : RoutedMemory} (hpush : s.accesses.push = .loadTail call head)
    (hload : s.memory.loadAcquire .producer (.queue call.shard .tail) i = some (tail, m)) :
    Inv orders numThreads (if SpscQueue.isFull queueExponent head tail then ⟨s.accesses, m⟩
      else ⟨{ s.accesses with push := .copyIn call head }, m⟩) := by
  have hsound : ∀ c, AccessRun.Refines orders numThreads s.accesses c →
      c.pushCall numThreads = some call ∧ head = (s.accesses.pipeline.queues call.shard).head := by
    intro c hrefines
    have hsound := hrefines.push
    rw [hpush] at hsound
    exact ⟨hsound.1, hsound.2.trans (hrefines.queues_eq _).1.symm⟩
  have ht : call.shard < numThreads := h.shard_lt fun c hrefines => (hsound c hrefines).1
  have hshard := h.shard
  rw [hpush] at hshard
  obtain ⟨rfl, hle, hseen, rfl⟩ := (h.shard _ ht).empties.loadAcquire hload
  obtain ⟨c, hrefines, -⟩ := h.refines
  obtain ⟨-, rfl⟩ := hsound c hrefines
  have hgrows : ∀ thread p, s.memory.seen thread p ≤ (s.memory.acquire .producer
      (.queue call.shard .tail) i).seen thread p := fun thread => s.memory.seen_le_acquire _ _ _ thread
  split
  · refine h.moveProducer h.refines rfl rfl (fun _ => rfl) h.past.acquire hgrows h.flag.acquire
      (fun t ht => (h.shard t ht).acquire) ?_
    rw [RoomSeen, hpush]
    trivial
  · rename_i hroom
    have hlt := Nat.lt_of_not_le fun hfull => hroom ((h.isFull_position ht hle).mpr hfull)
    have hfree : ¬ SpscQueue.isFull queueExponent (s.accesses.pipeline.queues call.shard).head
        (s.accesses.pipeline.queues call.shard).tail := by
      intro hfull
      rw [SpscQueue.isFull_iff_toNat (by decide) (BitVec.le_def.mpr (hrefines.tail_le_head ht))]
        at hfull
      exact hlt.not_ge ((Nat.add_le_add_right hle _).trans hfull)
    have hstep : s.accesses.routeStep orders numThreads = some { s.accesses with
        push := .copyIn call (s.accesses.pipeline.queues call.shard).head } := by
      simp only [AccessRun.routeStep, hpush, if_neg hfree]
    exact h.moveProducer (h.refines_route hthreads hstep) rfl rfl (fun _ => rfl) h.past.acquire hgrows
      h.flag.acquire (fun t ht => (hshard t ht).acquire)
      (hlt.trans_eq (congrArg (· + 2 ^ queueExponent) hseen.symm))

theorem Inv.copiedIn (h : Inv orders numThreads s) (hthreads : 1 ≤ numThreads) {call : PushOrder}
    {head : BitVec 64} (hpush : s.accesses.push = .copyIn call head) :
    Inv orders numThreads
      ⟨{ s.accesses with
          pipeline := s.accesses.pipeline.setQueue call.shard
            ((s.accesses.pipeline.queues call.shard).copyIn queueExponent head call.msg)
          push := .storeHead call head },
        s.memory.event .producer
          (.queue call.shard (.copiedIn (SpscQueue.slotOf queueExponent head)))⟩ := by
  have hstep : s.accesses.routeStep orders numThreads = some { s.accesses with
      pipeline := s.accesses.pipeline.setQueue call.shard
        ((s.accesses.pipeline.queues call.shard).copyIn queueExponent head call.msg)
      push := .storeHead call head } := by
    simp only [AccessRun.routeStep, hpush]
  obtain ⟨c, hrefines, -⟩ := h.refines
  have hhead : head = (s.accesses.pipeline.queues call.shard).head := by
    have hsound := hrefines.push
    rw [hpush] at hsound
    exact hsound.2.1.trans (hrefines.queues_eq _).1.symm
  have hslot : SpscQueue.slotOf queueExponent head =
      (s.accesses.pipeline.queues call.shard).head.toNat % 2 ^ queueExponent := by
    rw [SpscQueue.slotOf_eq (by decide), hhead]
  have hshard := h.shard
  rw [hpush] at hshard
  have hqueues := s.accesses.pipeline.written_queues (.storeHead call head)
  refine h.moveProducer (h.refines_route hthreads hstep) rfl rfl (fun t => (hqueues t).2)
    h.past.event (fun thread p => h.past.seen_le_event thread p)
    (h.flag.event_of_ne (RoutedPlace.queue_ne_done _ _).symm) (fun t ht => ?_) trivial
  change ShardMemory _ t ((s.accesses.pipeline.written (.storeHead call head)).queues t).head.toNat _ _ _
  rw [(hqueues t).1]
  by_cases hne : t = call.shard
  · subst hne
    rw [hslot, PushAccess.filling, if_pos rfl]
    exact (hshard _ ht).copyIn h.past
  · rw [PushAccess.filling, if_neg (Ne.symm hne)]
    exact (hshard t ht).event_other h.past hne

theorem Inv.storedHead (h : Inv orders numThreads s) (hthreads : 1 ≤ numThreads) {call : PushOrder}
    {head : BitVec 64} (hpush : s.accesses.push = .storeHead call head) :
    Inv orders numThreads
      ⟨{ s.accesses with
          pipeline := { s.accesses.pipeline.setQueue call.shard
            { s.accesses.pipeline.queues call.shard with head := head + 1 } with router := call.next }
          push := .outside },
        s.memory.storeRelease .producer (.queue call.shard .head) (head + 1)⟩ := by
  have hstep : s.accesses.routeStep orders numThreads = some { s.accesses with
      pipeline := { s.accesses.pipeline.setQueue call.shard
        { s.accesses.pipeline.queues call.shard with head := head + 1 } with router := call.next }
      push := .outside } := by
    simp only [AccessRun.routeStep, hpush]
  obtain ⟨c, hrefines, -⟩ := h.refines
  have hsound := hrefines.push
  rw [hpush] at hsound
  have hnone : s.accesses.pipeline.producerDone = false :=
    hrefines.producerDone_eq.trans (hrefines.inv.not_done_of_pushCall hsound.1)
  have hflag := h.flag
  rw [hnone] at hflag
  have hhead : head = (s.accesses.pipeline.queues call.shard).head :=
    hsound.2.1.trans (hrefines.queues_eq _).1.symm
  have hshard := h.shard
  rw [hpush] at hshard
  refine h.moveProducer (h.refines_route hthreads hstep) rfl rfl
    ((Function.forall_update_iff s.accesses.pipeline.queues (p := fun t queue =>
      queue.tail = (s.accesses.pipeline.queues t).tail)).mpr ⟨rfl, fun _ _ => rfl⟩)
    h.past.storeRelease (fun thread p => h.past.seen_le_storeRelease thread p) ?_
    (fun t ht => ?_) trivial
  · rw [← hnone] at hflag
    exact hflag.storeRelease_of_ne (RoutedPlace.queue_ne_done _ _).symm
  · by_cases hne : t = call.shard
    · subst hne
      have hnext := hrefines.toNat_head_succ hpush ht
      have hkept := hshard _ ht
      rw [PushAccess.filling, if_pos rfl] at hkept
      change ShardMemory _ _ ((s.accesses.pipeline.setQueue call.shard
        { s.accesses.pipeline.queues call.shard with head := head + 1 }).queues call.shard).head.toNat
          0 _ _
      rw [RoutedRun.setQueue_self, hnext]
      exact hkept.storeHead h.past hflag.index_now (hhead ▸ SpscQueue.succ_eq_position _)
    · have hkept := hshard t ht
      rw [PushAccess.filling, if_neg (Ne.symm hne)] at hkept
      change ShardMemory _ _ ((s.accesses.pipeline.setQueue call.shard
        { s.accesses.pipeline.queues call.shard with head := head + 1 }).queues t).head.toNat 0 _ _
      rw [RoutedRun.setQueue_of_ne _ hne]
      exact hkept.storeRelease_other h.past hne

theorem Inv.routeStep (h : Inv orders numThreads s) (hthreads : 1 ≤ numThreads)
    (hstep : s.routeStep orders numThreads i = some s') : Inv orders numThreads s' := by
  unfold OrderedRoutedRun.routeStep at hstep
  cases hpush : s.accesses.push with
  | outside =>
    simp only [hpush] at hstep
    split at hstep
    · rename_i call hcall
      obtain ⟨⟨head, memory⟩, hload, rfl⟩ := Option.map_eq_some_iff.mp hstep
      exact h.called hthreads hpush hcall hload
    · rename_i hcall
      obtain ⟨pipeline, hroute, rfl⟩ := Option.map_eq_some_iff.mp hstep
      simpa only [hpush] using h.routed hthreads hpush hcall hroute
  | loadTail call head =>
    simp only [hpush] at hstep
    obtain ⟨⟨tail, memory⟩, hload, rfl⟩ := Option.map_eq_some_iff.mp hstep
    exact h.testedRoom hthreads hpush hload
  | copyIn call head =>
    simp only [hpush] at hstep
    exact Option.some.inj hstep ▸ h.copiedIn hthreads hpush
  | storeHead call head =>
    simp only [hpush] at hstep
    exact Option.some.inj hstep ▸ h.storedHead hthreads hpush

end OrderedRoutedRun

end NanoRing
