import NanoRing.Common.Simulation
import NanoRing.Pipeline.RoutedBatches

/-!
# The routed pipeline, access by access

In the routed pipeline a push, a pop and a load of the number of available items are one step
each. Here every load of an index, every copy of an order and every store of an index is a step of
its own, and the calls of all threads overlap. The memory is that of a run in which each call is
one step, apart from an order that is copied into its slot and not yet made visible.
-/

namespace NanoRing

open Schedule

/-- A call of `push` by the producer, and where the producer goes on after it. -/
structure PushOrder where
  shard : ℕ
  msg : DecodedOrder
  next : RouterPc
deriving DecidableEq

/-- Where the producer is: outside a call, or at its next access in `push`. -/
inductive PushAccess
  | outside
  | loadTail (call : PushOrder) (h : BitVec 64)
  | copyIn (call : PushOrder) (h : BitVec 64)
  | storeHead (call : PushOrder) (h : BitVec 64)
deriving DecidableEq

/-- Where a book thread is: outside a call, at its next access in `try_pop`, or at the second load
of `available`. -/
inductive PopAccess
  | outside
  | loadHead (t : BitVec 64)
  | copyOut (t : BitVec 64)
  | storeTail (t : BitVec 64) (order : DecodedOrder)
  | loadTail (h : BitVec 64)
deriving DecidableEq

/-- How many accesses a call of `push` has left. -/
def PushAccess.left : PushAccess → ℕ
  | .outside => 4
  | .loadTail _ _ => 3
  | .copyIn _ _ => 2
  | .storeHead _ _ => 1

/-- How many accesses a call of a book thread has left. -/
def PopAccess.left : PopAccess → ℕ
  | .outside => 4
  | .loadHead _ => 3
  | .copyOut _ => 2
  | .storeTail _ _ => 1
  | .loadTail _ => 1

/-- The pipeline, with the queues as they are in memory, and where its threads are in a call. -/
structure AccessRun where
  pipeline : RoutedRun
  push : PushAccess
  pop : ℕ → PopAccess

/-- The `push` that the producer calls next, if it calls one. -/
def RoutedRun.pushCall (numThreads : ℕ) (s : RoutedRun) : Option PushOrder :=
  match s.router with
  | .pushing i shard j =>
    (s.batches shard)[j]?.map fun msg => ⟨shard, msg, .pushing i shard (j + 1)⟩
  | .flushing shard j =>
    if shard < numThreads then
      (s.batches shard)[j]?.map fun msg => ⟨shard, msg, .flushing shard (j + 1)⟩
    else none
  | _ => none

namespace AccessRun

def start : AccessRun where
  pipeline := .start
  push := .outside
  pop := fun _ => .outside

/-- The state with one book thread at another access. -/
def setPop (s : AccessRun) (t : ℕ) (pop : PopAccess) : AccessRun :=
  { s with pop := Function.update s.pop t pop }

/-- The next step of the producer: a call loads `head_`, and spins on `tail_` while the queue is
full. -/
def routeStep (orders : OrderArray) (numThreads : ℕ) (s : AccessRun) : Option AccessRun :=
  match s.push with
  | .outside =>
    match s.pipeline.pushCall numThreads with
    | some call => some { s with push := .loadTail call (s.pipeline.queues call.shard).head }
    | none => (s.pipeline.routeStep orders numThreads).map fun pipeline => { s with pipeline }
  | .loadTail call h =>
    if SpscQueue.isFull queueExponent h (s.pipeline.queues call.shard).tail then some s
    else some { s with push := .copyIn call h }
  | .copyIn call h =>
    some { s with
      pipeline := s.pipeline.setQueue call.shard
        ((s.pipeline.queues call.shard).copyIn queueExponent h call.msg)
      push := .storeHead call h }
  | .storeHead call h =>
    some { s with
      pipeline := { s.pipeline.setQueue call.shard
        { s.pipeline.queues call.shard with head := h + 1 } with router := call.next }
      push := .outside }

/-- The next step of book thread `t`: `try_pop` loads `tail_` first, `available` loads `head_`
first. -/
def threadStep (s : AccessRun) (t : ℕ) : Option AccessRun :=
  let consumer := s.pipeline.consumers t
  let queue := s.pipeline.queues t
  match s.pop t with
  | .outside =>
    match consumer.pc with
    | .popping => some (s.setPop t (.loadHead queue.tail))
    | .testAvailable => some (s.setPop t (.loadTail queue.head))
    | _ => (s.pipeline.threadStep t).map fun pipeline => { s with pipeline }
  | .loadHead tail =>
    if SpscQueue.isEmpty queue.head tail then
      some { s.setPop t .outside with
        pipeline := s.pipeline.setConsumer t { consumer with pc := .testDone } }
    else some (s.setPop t (.copyOut tail))
  | .copyOut tail => some (s.setPop t (.storeTail tail (queue.copyOut queueExponent tail)))
  | .storeTail tail order =>
    some { s.setPop t .outside with
      pipeline := (s.pipeline.setQueue t { queue with tail := tail + 1 }).setConsumer t
        { consumer with pc := .applying order } }
  | .loadTail head =>
    if head - queue.tail == 0 then
      some { s.setPop t .outside with
        pipeline := { s.pipeline.setConsumer t { consumer with pc := .exited } with
          threadMessageCounts :=
            Function.update s.pipeline.threadMessageCounts t consumer.localCount } }
    else
      some { s.setPop t .outside with
        pipeline := s.pipeline.setConsumer t { consumer with pc := .popping } }

/-- One access of the pipeline with book threads below `numThreads`. -/
def step (orders : OrderArray) (numThreads : ℕ) (s : AccessRun) : RoutedAction → Option AccessRun
  | .route => s.routeStep orders numThreads
  | .thread t => if t < numThreads then s.threadStep t else none

end AccessRun

/-! ## What the queue keeps while it is accessed -/

namespace SpscQueue

variable {w : ℕ} {α : Type} {exponent popped pushed : ℕ} {q : SpscQueue w α} {items : ℕ → α}
  {item : α}

/-- In a queue that is neither full nor empty the slots of the two positions differ. -/
theorem Holds.slotOf_ne (h : Holds exponent q items popped pushed) (hcapacity : exponent < w)
    (hroom : ¬ isFull exponent q.head q.tail) (hnonempty : ¬ isEmpty q.head q.tail) :
    slotOf exponent q.tail ≠ slotOf exponent q.head := by
  have hlt : popped < pushed :=
    h.popped_le.lt_of_ne fun heq => hnonempty (h.isEmpty_iff.mpr heq)
  have hnear : pushed < popped + 2 ^ exponent :=
    Nat.lt_of_not_le fun hle => hroom ((h.isFull_iff hcapacity).mpr hle)
  rw [slotOf_eq hcapacity, slotOf_eq hcapacity, h.head_eq, h.tail_eq]
  exact RingWindow.slot_ne hlt hnear

/-- A copy into the slot of the write position leaves the next item to pop as it is. -/
theorem Holds.copyOut_copyIn (h : Holds exponent q items popped pushed) (hcapacity : exponent < w)
    (hroom : ¬ isFull exponent q.head q.tail) (hnonempty : ¬ isEmpty q.head q.tail) :
    (q.copyIn exponent q.head item).copyOut exponent q.tail = q.copyOut exponent q.tail :=
  Function.update_of_ne (h.slotOf_ne hcapacity hroom hnonempty) _ _

/-- A queue with something to pop is not empty after a push, which cannot wrap the position when
the queue still holds a sequence. -/
theorem Holds.nonempty_enqueue (h : Holds exponent q items popped pushed) (hcapacity : exponent < w)
    {items' : ℕ → α} {popped' pushed' : ℕ}
    (h' : Holds exponent (q.enqueue exponent q.head item) items' popped' pushed')
    (hroom : ¬ isFull exponent q.head q.tail) (hnonempty : ¬ isEmpty q.head q.tail) :
    ¬ isEmpty (q.head + 1) q.tail := by
  have hlt : popped < pushed :=
    h.popped_le.lt_of_ne fun heq => hnonempty (h.isEmpty_iff.mpr heq)
  have hnear : pushed < popped + 2 ^ exponent :=
    Nat.lt_of_not_le fun hle => hroom ((h.isFull_iff hcapacity).mpr hle)
  have hbound : q.head.toNat + 1 < 2 ^ w := by
    -- a position that wraps is zero, and then nothing would have been popped
    by_contra hwrap
    have hpow := Nat.pow_lt_pow_right Nat.one_lt_two hcapacity
    have hone : BitVec.toNat (1 : BitVec w) = 1 := BitVec.toNat_one (Nat.zero_lt_of_lt hcapacity)
    have hhead := q.head.isLt
    have hzero : (q.head + 1).toNat = 0 := by
      rw [BitVec.toNat_add, hone, (by omega : q.head.toNat + 1 = 2 ^ w), Nat.mod_self]
    have hpushed' : pushed' = 0 := h'.head_eq.symm.trans hzero
    have hpopped : popped = popped' := h.tail_eq.symm.trans h'.tail_eq
    have hle := h'.popped_le
    have hpushed := h.head_eq
    omega
  have hsucc := toNat_succ (Nat.zero_lt_of_lt hcapacity) hbound
  rw [isEmpty, decide_eq_true_iff, ge_iff_le, BitVec.le_def, hsucc, h.head_eq, h.tail_eq]
  omega

/-- A queue with room has room after a pop. -/
theorem Holds.room_pop (h : Holds exponent q items popped pushed) (hcapacity : exponent < w)
    (hroom : ¬ isFull exponent q.head q.tail) (hnonempty : ¬ isEmpty q.head q.tail) :
    ¬ isFull exponent q.head (q.tail + 1) := by
  have hpop : q.tryPop exponent = some (q.copyOut exponent q.tail, { q with tail := q.tail + 1 }) :=
    if_neg hnonempty
  obtain ⟨-, -, h'⟩ := h.tryPop hcapacity hpop
  have hnear : pushed < popped + 2 ^ exponent :=
    Nat.lt_of_not_le fun hle => hroom ((h.isFull_iff hcapacity).mpr hle)
  intro hfull
  have hle := (h'.isFull_iff hcapacity).mp hfull
  omega

end SpscQueue

namespace RoutedRun

variable {orders : OrderArray} {numThreads : ℕ} {c c' : RoutedRun} {t : ℕ}

/-- The memory while the producer is at an access: the item that it has copied into a slot is in
it, and not yet in the queue. -/
def written (c : RoutedRun) : PushAccess → RoutedRun
  | .storeHead call h =>
    c.setQueue call.shard ((c.queues call.shard).copyIn queueExponent h call.msg)
  | _ => c

/-- What the producer has loaded and found still holds. -/
def PushSound (numThreads : ℕ) (c : RoutedRun) : PushAccess → Prop
  | .outside => True
  | .loadTail call h =>
    c.pushCall numThreads = some call ∧ h = (c.queues call.shard).head
  | .copyIn call h | .storeHead call h =>
    c.pushCall numThreads = some call ∧ h = (c.queues call.shard).head ∧
      ¬ SpscQueue.isFull queueExponent h (c.queues call.shard).tail

/-- What a book thread has loaded, found and copied is still right. -/
def PopSound (c : RoutedRun) (t : ℕ) : PopAccess → Prop
  | .outside => True
  | .loadHead tail => (c.consumers t).pc = .popping ∧ tail = (c.queues t).tail
  | .copyOut tail =>
    (c.consumers t).pc = .popping ∧ tail = (c.queues t).tail ∧
      ¬ SpscQueue.isEmpty (c.queues t).head tail
  | .storeTail tail order =>
    (c.consumers t).pc = .popping ∧ tail = (c.queues t).tail ∧
      ¬ SpscQueue.isEmpty (c.queues t).head tail ∧
      order = (c.queues t).copyOut queueExponent tail
  | .loadTail head => (c.consumers t).pc = .testAvailable ∧ head = (c.queues t).head

/-- The producer's knowledge survives what leaves its batches and the end of its queue alone. -/
theorem PushSound.mono {push : PushAccess} (h : PushSound numThreads c push)
    (hrouter : c'.router = c.router) (hbatches : c'.batches = c.batches)
    (hhead : ∀ shard, (c'.queues shard).head = (c.queues shard).head)
    (hroom : ∀ shard, ¬ SpscQueue.isFull queueExponent (c.queues shard).head (c.queues shard).tail →
      ¬ SpscQueue.isFull queueExponent (c'.queues shard).head (c'.queues shard).tail) :
    PushSound numThreads c' push := by
  have hcall : c'.pushCall numThreads = c.pushCall numThreads := by
    rw [pushCall, pushCall, hrouter, hbatches]
  cases push with
  | outside => trivial
  | loadTail call h' => exact ⟨hcall.trans h.1, h.2.trans (hhead _).symm⟩
  | copyIn call h' | storeHead call h' =>
    obtain ⟨hpush, rfl, hfull⟩ := h
    refine ⟨hcall.trans hpush, (hhead _).symm, ?_⟩
    rw [← hhead]
    exact hroom _ hfull

/-- A thread's knowledge survives what leaves the thread and its queue alone. -/
theorem PopSound.congr {pop : PopAccess} (h : PopSound c t pop)
    (hconsumer : c'.consumers t = c.consumers t) (hqueue : c'.queues t = c.queues t) :
    PopSound c' t pop := by
  unfold PopSound at h ⊢
  rw [hconsumer, hqueue]
  exact h

@[simp] theorem written_consumers (c : RoutedRun) (push : PushAccess) :
    (c.written push).consumers = c.consumers := by
  cases push <;> rfl

@[simp] theorem written_producerDone (c : RoutedRun) (push : PushAccess) :
    (c.written push).producerDone = c.producerDone := by
  cases push <;> rfl

@[simp] theorem written_threadMessageCounts (c : RoutedRun) (push : PushAccess) :
    (c.written push).threadMessageCounts = c.threadMessageCounts := by
  cases push <;> rfl

theorem setQueue_self (c : RoutedRun) (t : ℕ) (queue : ShardQueue) :
    (c.setQueue t queue).queues t = queue := Function.update_self _ _ _

theorem setQueue_of_ne (c : RoutedRun) {t' : ℕ} (h : t' ≠ t) (queue : ShardQueue) :
    (c.setQueue t queue).queues t' = c.queues t' := Function.update_of_ne h _ _

/-- A copied item is not visible: both indices are as they were. -/
theorem written_setConsumer (c : RoutedRun) (push : PushAccess) (t : ℕ) (consumer : RoutedConsumer) :
    (c.written push).setConsumer t consumer = (c.setConsumer t consumer).written push := by
  cases push <;> rfl

theorem written_leave (c : RoutedRun) (push : PushAccess) (t count : ℕ) (consumer : RoutedConsumer) :
    { (c.written push).setConsumer t consumer with
        threadMessageCounts := Function.update (c.written push).threadMessageCounts t count } =
      written { c.setConsumer t consumer with
        threadMessageCounts := Function.update c.threadMessageCounts t count } push := by
  cases push <;> rfl

/-- Outside its calls a thread does not look at the queues. -/
theorem threadStep_written (push : PushAccess) (hpopping : (c.consumers t).pc ≠ .popping)
    (havailable : (c.consumers t).pc ≠ .testAvailable) :
    (c.written push).threadStep t = (c.threadStep t).map fun c' => c'.written push := by
  unfold threadStep
  rw [written_consumers, written_producerDone]
  dsimp only
  cases hpc : (c.consumers t).pc with
  | popping => exact absurd hpc hpopping
  | applying order => exact congrArg some (c.written_setConsumer push t _)
  | testDone =>
    cases c.producerDone with
    | true => exact congrArg some (c.written_setConsumer push t _)
    | false => exact congrArg some (c.written_setConsumer push t _)
  | testAvailable => exact absurd hpc havailable
  | exited => rfl

theorem written_queues (c : RoutedRun) (push : PushAccess) (t : ℕ) :
    ((c.written push).queues t).head = (c.queues t).head ∧
      ((c.written push).queues t).tail = (c.queues t).tail := by
  cases push with
  | storeHead call h =>
    rw [written]
    by_cases ht : t = call.shard
    · subst ht
      rw [setQueue_self]
      exact ⟨rfl, rfl⟩
    · rw [setQueue_of_ne c ht]
      exact ⟨rfl, rfl⟩
  | outside | loadTail | copyIn => exact ⟨rfl, rfl⟩

/-- A pop stores its index next to an item that is copied in. -/
theorem written_setQueue_tail (c : RoutedRun) (push : PushAccess) (t : ℕ) (tail : BitVec 64) :
    (c.written push).setQueue t { (c.written push).queues t with tail := tail } =
      (c.setQueue t { c.queues t with tail := tail }).written push := by
  cases push with
  | storeHead call h =>
    rw [written, written]
    by_cases ht : t = call.shard
    · subst ht
      rw [setQueue_self, setQueue_self, setQueue, setQueue, setQueue, setQueue,
        Function.update_idem, Function.update_idem]
      rfl
    · rw [setQueue_of_ne c ht, setQueue_of_ne c (Ne.symm ht), setQueue, setQueue, setQueue, setQueue,
        Function.update_comm ht]
  | outside | loadTail | copyIn => rfl

/-- The store of `head_` makes the item that is copied in visible. -/
theorem setQueue_written (c : RoutedRun) (call : PushOrder) (h : BitVec 64) :
    (c.written (.storeHead call h)).setQueue call.shard
        { (c.written (.storeHead call h)).queues call.shard with head := h + 1 } =
      c.setQueue call.shard ((c.queues call.shard).enqueue queueExponent h call.msg) := by
  rw [written, setQueue_self, setQueue, setQueue, setQueue, Function.update_idem]
  rfl

/-! ### What one side keeps for the other -/

/-- A thread with something to pop copies it out of the memory, whatever is being copied in. -/
theorem PushSound.copyOut_written {push : PushAccess} (h : PushSound numThreads c push)
    {items : ℕ → DecodedOrder} {popped pushed : ℕ}
    (hholds : (c.queues t).Holds queueExponent items popped pushed)
    (hnonempty : ¬ SpscQueue.isEmpty (c.queues t).head (c.queues t).tail) :
    ((c.written push).queues t).copyOut queueExponent (c.queues t).tail =
      (c.queues t).copyOut queueExponent (c.queues t).tail := by
  cases push with
  | storeHead call head =>
    obtain ⟨-, rfl, hroom⟩ := h
    rw [written]
    by_cases ht : t = call.shard
    · subst ht
      rw [setQueue_self]
      exact hholds.copyOut_copyIn (by decide) hroom hnonempty
    · rw [setQueue_of_ne c ht]
  | outside | loadTail | copyIn => rfl

/-- The step of the producer at a call is the push of the call. -/
theorem routeStep_of_pushCall {call : PushOrder} (h : c.pushCall numThreads = some call) :
    c.routeStep orders numThreads = c.pushInto call.shard call.msg call.next := by
  unfold pushCall at h
  unfold routeStep
  cases hrouter : c.router with
  | pushing i shard j =>
    rw [hrouter] at h
    obtain ⟨msg, hmsg, rfl⟩ := Option.map_eq_some_iff.mp h
    simp only [hmsg]
  | flushing shard j =>
    rw [hrouter] at h
    obtain ⟨hshard, hcall⟩ := Option.ite_none_right_eq_some.mp h
    obtain ⟨msg, hmsg, rfl⟩ := Option.map_eq_some_iff.mp hcall
    simp only [if_pos hshard, hmsg]
  | routing i | finished =>
    rw [hrouter] at h
    contradiction

/-- A step of the producer without a call leaves the threads and their queues as they are. -/
theorem routeStep_of_no_pushCall (h : c.pushCall numThreads = none)
    (hstep : c.routeStep orders numThreads = some c') :
    c'.consumers = c.consumers ∧ c'.queues = c.queues := by
  cases routeMoves_of_routeStep hstep with
  | pushFull i shard j msg queue hrouter hmsg hpush =>
    simp only [pushCall, hrouter, hmsg, Option.map_some, reduceCtorEq] at h
  | pushRest shard j msg queue hrouter hshard hmsg hpush =>
    simp only [pushCall, hrouter, if_pos hshard, hmsg, Option.map_some, reduceCtorEq] at h
  | append | fill | startFlush | clear | nextShard | finish => exact ⟨rfl, rfl⟩

/-- A thread's knowledge survives a push, which only makes more orders available. -/
theorem PopSound.push {pop : PopAccess} (h : PopSound c t pop) (ht : t < numThreads)
    {call : PushOrder} (hcall : c.pushCall numThreads = some call)
    (hroom : ¬ SpscQueue.isFull queueExponent (c.queues call.shard).head
      (c.queues call.shard).tail)
    (hinv : Inv orders numThreads c) :
    let c' := { c.setQueue call.shard ((c.queues call.shard).enqueue queueExponent
      (c.queues call.shard).head call.msg) with router := call.next }
    Inv orders numThreads c' → PopSound c' t pop := by
  intro c' hinv'
  by_cases hne : t = call.shard
  · subst hne
    obtain ⟨popped, pushed, hr, ha⟩ := hinv.shard _ ht
    obtain ⟨popped', pushed', hr', -⟩ := hinv'.shard _ ht
    have hqueue : c'.queues call.shard = (c.queues call.shard).enqueue queueExponent
        (c.queues call.shard).head call.msg := setQueue_self c _ _
    have hholds' := hr'.holds
    rw [hqueue] at hholds'
    have hkept := hr.holds.nonempty_enqueue (by decide) hholds' hroom
    unfold PopSound at h ⊢
    rw [hqueue]
    cases pop with
    | outside => trivial
    | loadHead tail => exact h
    | copyOut tail =>
      obtain ⟨hpc, rfl, hnonempty⟩ := h
      exact ⟨hpc, rfl, hkept hnonempty⟩
    | storeTail tail order =>
      obtain ⟨hpc, rfl, hnonempty, rfl⟩ := h
      exact ⟨hpc, rfl, hkept hnonempty,
        (hr.holds.copyOut_copyIn (by decide) hroom hnonempty).symm⟩
    | loadTail head =>
      -- the second load of `available` follows the flag, and the flag follows the last push
      have hfinished := hinv.finished_of_done (ha.done h.1)
      rw [pushCall, hfinished] at hcall
      contradiction
  · exact h.congr rfl (setQueue_of_ne c hne _)

/-- The producer's knowledge survives a step of a thread, which only makes room. -/
theorem PushSound.thread {push : PushAccess} (h : PushSound numThreads c push)
    (hinv : Inv orders numThreads c) (ht : t < numThreads) (hmoves : ThreadMoves c t c') :
    PushSound numThreads c' push := by
  obtain ⟨hrouter, hbatches, -⟩ := hmoves.producer_eq
  cases hmoves with
  | pop order queue hpc hpop =>
    unfold SpscQueue.tryPop at hpop
    split at hpop
    · contradiction
    · rename_i hnonempty
      obtain ⟨-, rfl⟩ := Prod.mk.injEq _ _ _ _ ▸ Option.some.inj hpop
      obtain ⟨popped, pushed, hr, -⟩ := hinv.shard t ht
      refine h.mono hrouter hbatches (fun shard => ?_) fun shard hroom => ?_
      · change ((c.setQueue t _).queues shard).head = _
        by_cases hshard : shard = t
        · rw [hshard, setQueue_self]
        · rw [setQueue_of_ne c hshard]
      · change ¬ SpscQueue.isFull queueExponent ((c.setQueue t _).queues shard).head
          ((c.setQueue t _).queues shard).tail
        by_cases hshard : shard = t
        · subst hshard
          rw [setQueue_self]
          exact hr.holds.room_pop (by decide) hroom hnonempty
        · rw [setQueue_of_ne c hshard]
          exact hroom
  | foundEmpty | apply | foundDone | again | leave | refilled =>
    exact h.mono hrouter hbatches (fun _ => rfl) fun _ hroom => hroom

end RoutedRun

namespace AccessRun

variable {orders : OrderArray} {numThreads : ℕ} {s s' : AccessRun} {c : RoutedRun}

/-- The memory is that of a pipeline whose calls are one step each, apart from an item that is
copied in, and every thread that is in a call knows what it has to know. -/
structure Refines (orders : OrderArray) (numThreads : ℕ) (s : AccessRun) (c : RoutedRun) : Prop where
  inv : c.Inv orders numThreads
  memory : s.pipeline = c.written s.push
  push : c.PushSound numThreads s.push
  pop : ∀ t < numThreads, c.PopSound t (s.pop t)

theorem start_refines (orders : OrderArray) (numThreads : ℕ) :
    Refines orders numThreads start RoutedRun.start where
  inv := RoutedRun.start_inv orders numThreads
  memory := rfl
  push := trivial
  pop := fun _ _ => trivial

/-- An access of the producer is a step of the pipeline, or none that it sees and leaves the call
less to do, unless the producer spins. -/
theorem Refines.route (h : Refines orders numThreads s c)
    (hstep : s.routeStep orders numThreads = some s') :
    (Refines orders numThreads s' c ∧
        (s'.push.left < s.push.left ∨ s' = s ∧ c.routeStep orders numThreads = none)) ∨
      ∃ c', c.routeStep orders numThreads = some c' ∧ Refines orders numThreads s' c' := by
  have hmemory := h.memory
  have hsound := h.push
  unfold AccessRun.routeStep at hstep
  cases hpush : s.push with
  | outside =>
    simp only [hpush] at hstep hmemory
    split at hstep
    · rename_i call hcall
      obtain rfl := Option.some.inj hstep
      rw [hmemory] at hcall
      refine .inl ⟨⟨h.inv, hmemory, ⟨hcall, ?_⟩, h.pop⟩, .inl (Nat.lt_succ_self 3)⟩
      exact congrArg (fun p => (p.queues call.shard).head) hmemory
    · rename_i hcall
      obtain ⟨c', hroute, rfl⟩ := Option.map_eq_some_iff.mp hstep
      rw [hmemory] at hcall hroute
      obtain ⟨hconsumers, hqueues⟩ := RoutedRun.routeStep_of_no_pushCall hcall hroute
      refine .inr ⟨c', hroute, h.inv.routeStep hroute, rfl, trivial, fun t ht => ?_⟩
      exact (h.pop t ht).congr (congrFun hconsumers t) (congrFun hqueues t)
  | loadTail call head =>
    simp only [hpush] at hstep hmemory
    rw [hpush] at hsound
    obtain ⟨hcall, rfl⟩ := hsound
    split at hstep
    · rename_i hfull
      obtain rfl := Option.some.inj hstep
      have hfull : SpscQueue.isFull queueExponent (c.queues call.shard).head
          (c.queues call.shard).tail := by
        rw [hmemory] at hfull
        exact hfull
      refine .inl ⟨h, .inr ⟨rfl, ?_⟩⟩
      rw [RoutedRun.routeStep_of_pushCall hcall, RoutedRun.pushInto, SpscQueue.push, if_pos hfull]
      rfl
    · rename_i hroom
      obtain rfl := Option.some.inj hstep
      rw [hmemory] at hroom
      exact .inl ⟨⟨h.inv, hmemory, ⟨hcall, rfl, hroom⟩, h.pop⟩, .inl (Nat.lt_succ_self 2)⟩
  | copyIn call head =>
    simp only [hpush] at hstep hmemory
    rw [hpush] at hsound
    obtain rfl := Option.some.inj hstep
    refine .inl ⟨⟨h.inv, ?_, hsound, h.pop⟩, .inl (Nat.lt_succ_self 1)⟩
    rw [hmemory]
    rfl
  | storeHead call head =>
    simp only [hpush] at hstep hmemory
    rw [hpush] at hsound
    obtain rfl := Option.some.inj hstep
    obtain ⟨hcall, rfl, hroom⟩ := hsound
    have hroute : c.routeStep orders numThreads = some
        { c.setQueue call.shard ((c.queues call.shard).enqueue queueExponent
          (c.queues call.shard).head call.msg) with router := call.next } := by
      rw [RoutedRun.routeStep_of_pushCall hcall, RoutedRun.pushInto, SpscQueue.push, if_neg hroom]
      rfl
    have hinv := h.inv.routeStep hroute
    refine .inr ⟨_, hroute, hinv, ?_, trivial, fun t ht => (h.pop t ht).push ht hcall hroom h.inv hinv⟩
    rw [hmemory, RoutedRun.setQueue_written]
    rfl

/-- A thread that goes to its next access changes nothing that the pipeline sees, and its call has
less left to do. -/
theorem Refines.setPop (h : Refines orders numThreads s c) {t : ℕ} {before pop : PopAccess}
    (hpop : c.PopSound t pop) (hleft : pop.left < before.left) :
    Refines orders numThreads (s.setPop t pop) c ∧
      ((s.setPop t pop).pop t).left < before.left := by
  have hself : (s.setPop t pop).pop t = pop := Function.update_self _ _ _
  refine ⟨⟨h.inv, h.memory, h.push, (Function.forall_update_iff s.pop (p := fun t' pop' =>
    t' < numThreads → c.PopSound t' pop')).mpr ⟨fun _ => hpop, fun t' _ => h.pop t'⟩⟩, ?_⟩
  rw [hself]
  exact hleft

/-- A thread that takes its step of the pipeline is outside its calls. -/
theorem Refines.moveThread (h : Refines orders numThreads s c) {t : ℕ} (ht : t < numThreads)
    {c' : RoutedRun} (hthread : c.threadStep t = some c') :
    Refines orders numThreads { s.setPop t .outside with pipeline := c'.written s.push } c' where
  inv := h.inv.threadStep hthread
  memory := rfl
  push := h.push.thread h.inv ht (RoutedRun.threadMoves_of_threadStep hthread)
  pop := (Function.forall_update_iff s.pop (p := fun t' pop' => t' < numThreads →
    c'.PopSound t' pop')).mpr ⟨fun _ => trivial, fun t' hne ht' => by
      obtain ⟨hconsumer, hqueue⟩ :=
        (RoutedRun.threadMoves_of_threadStep hthread).other_eq hne
      exact (h.pop t' ht').congr hconsumer hqueue⟩

/-- A load, a test and a copy of a book thread are no step of the pipeline; the access that ends a
call is one, and so is every step outside the calls. -/
theorem Refines.thread (h : Refines orders numThreads s c) {t : ℕ} (ht : t < numThreads)
    (hstep : s.threadStep t = some s') :
    (Refines orders numThreads s' c ∧ (s'.pop t).left < (s.pop t).left) ∨
      ∃ c', c.threadStep t = some c' ∧ Refines orders numThreads s' c' := by
  have hmemory := h.memory
  have hsound := h.pop t ht
  have hconsumer : s.pipeline.consumers t = c.consumers t := by
    rw [hmemory, RoutedRun.written_consumers]
  obtain ⟨hhead, htail⟩ := c.written_queues s.push t
  rw [← hmemory] at hhead htail
  unfold AccessRun.threadStep at hstep
  rw [hconsumer] at hstep
  dsimp only at hstep
  cases hpop : s.pop t with
  | outside =>
    simp only [hpop] at hstep
    cases hpc : (c.consumers t).pc with
    | popping =>
      simp only [hpc] at hstep
      obtain rfl := Option.some.inj hstep
      exact .inl (h.setPop ⟨hpc, htail⟩ (Nat.lt_succ_self 3))
    | testAvailable =>
      simp only [hpc] at hstep
      obtain rfl := Option.some.inj hstep
      exact .inl (h.setPop ⟨hpc, hhead⟩ (show 1 < 4 by decide))
    | applying order | testDone | exited =>
      simp only [hpc] at hstep
      obtain ⟨pipeline, hthread, rfl⟩ := Option.map_eq_some_iff.mp hstep
      rw [hmemory, RoutedRun.threadStep_written s.push (by simp [hpc]) (by simp [hpc])] at hthread
      obtain ⟨c', hplain, rfl⟩ := Option.map_eq_some_iff.mp hthread
      have hmoved := h.moveThread ht hplain
      rw [AccessRun.setPop, ← hpop, Function.update_eq_self] at hmoved
      exact .inr ⟨c', hplain, hmoved⟩
  | loadHead tail =>
    simp only [hpop] at hstep
    rw [hpop] at hsound
    obtain ⟨hpc, rfl⟩ := hsound
    rw [hhead] at hstep
    split at hstep
    · rename_i hempty
      obtain rfl := Option.some.inj hstep
      have hthread : c.threadStep t =
          some (c.setConsumer t { c.consumers t with pc := .testDone }) := by
        simp only [RoutedRun.threadStep, hpc, SpscQueue.tryPop, if_pos hempty]
      have hmoved := h.moveThread ht hthread
      rw [← RoutedRun.written_setConsumer, ← hmemory] at hmoved
      exact .inr ⟨_, hthread, hmoved⟩
    · rename_i hnonempty
      obtain rfl := Option.some.inj hstep
      exact .inl (h.setPop ⟨hpc, rfl, hnonempty⟩ (Nat.lt_succ_self 2))
  | copyOut tail =>
    simp only [hpop] at hstep
    rw [hpop] at hsound
    obtain ⟨hpc, rfl, hnonempty⟩ := hsound
    obtain rfl := Option.some.inj hstep
    obtain ⟨popped, pushed, hr, -⟩ := h.inv.shard t ht
    refine .inl (h.setPop ⟨hpc, rfl, hnonempty, ?_⟩ (Nat.lt_succ_self 1))
    rw [hmemory]
    exact h.push.copyOut_written hr.holds hnonempty
  | storeTail tail order =>
    simp only [hpop] at hstep
    rw [hpop] at hsound
    obtain ⟨hpc, rfl, hnonempty, rfl⟩ := hsound
    obtain rfl := Option.some.inj hstep
    have hthread : c.threadStep t = some ((c.setQueue t
        { c.queues t with tail := (c.queues t).tail + 1 }).setConsumer t
          { c.consumers t with pc := .applying ((c.queues t).copyOut queueExponent
            (c.queues t).tail) }) := by
      simp only [RoutedRun.threadStep, hpc, SpscQueue.tryPop, if_neg hnonempty]
      rfl
    have hmoved := h.moveThread ht hthread
    rw [← RoutedRun.written_setConsumer, ← RoutedRun.written_setQueue_tail, ← hmemory] at hmoved
    exact .inr ⟨_, hthread, hmoved⟩
  | loadTail head =>
    simp only [hpop] at hstep
    rw [hpop] at hsound
    obtain ⟨hpc, rfl⟩ := hsound
    rw [htail] at hstep
    split at hstep
    · rename_i hzero
      obtain rfl := Option.some.inj hstep
      have hthread : c.threadStep t = some
          { c.setConsumer t { c.consumers t with pc := .exited } with
            threadMessageCounts :=
              Function.update c.threadMessageCounts t (c.consumers t).localCount } := by
        unfold RoutedRun.threadStep
        dsimp only
        rw [hpc]
        exact if_pos hzero
      have hmoved := h.moveThread ht hthread
      rw [← RoutedRun.written_leave, ← hmemory] at hmoved
      exact .inr ⟨_, hthread, hmoved⟩
    · rename_i hmore
      obtain rfl := Option.some.inj hstep
      have hthread : c.threadStep t =
          some (c.setConsumer t { c.consumers t with pc := .popping }) := by
        unfold RoutedRun.threadStep
        dsimp only
        rw [hpc]
        exact if_neg hmore
      have hmoved := h.moveThread ht hthread
      rw [← RoutedRun.written_setConsumer, ← hmemory] at hmoved
      exact .inr ⟨_, hthread, hmoved⟩

theorem Refines.step (h : Refines orders numThreads s c) {a : RoutedAction}
    (hstep : s.step orders numThreads a = some s') :
    Refines orders numThreads s' c ∨
      ∃ b c', c.step orders numThreads b = some c' ∧ Refines orders numThreads s' c' := by
  cases a with
  | route => exact (h.route hstep).imp And.left fun ⟨c', hroute, h'⟩ => ⟨.route, c', hroute, h'⟩
  | thread t =>
    obtain ⟨ht, hthread⟩ := Option.ite_none_right_eq_some.mp hstep
    refine (h.thread ht hthread).imp And.left fun ⟨c', hcoarse, h'⟩ => ?_
    exact ⟨.thread t, c', (if_pos ht).trans hcoarse, h'⟩

theorem Refines.delivers (h : Refines orders numThreads s c) (hthreads : 1 ≤ numThreads) :
    s.pipeline.Delivers orders numThreads := by
  have hdelivers := h.inv.delivers hthreads
  rw [h.memory]
  cases s.push with
  | outside | loadTail | copyIn | storeHead =>
    exact ⟨hdelivers.applied, hdelivers.exited, hdelivers.managers, hdelivers.counts⟩

/-- The copies of the two sides of a queue are in different slots. -/
theorem Refines.slotOf_ne (h : Refines orders numThreads s c) {call : PushOrder} {head tail : BitVec 64}
    (hpush : s.push = .copyIn call head) (hpop : s.pop call.shard = .copyOut tail)
    (ht : call.shard < numThreads) :
    SpscQueue.slotOf queueExponent tail ≠ SpscQueue.slotOf queueExponent head := by
  have hin := h.push
  have hout := h.pop call.shard ht
  rw [hpush] at hin
  rw [hpop] at hout
  obtain ⟨-, rfl, hroom⟩ := hin
  obtain ⟨-, rfl, hnonempty⟩ := hout
  obtain ⟨popped, pushed, hr, -⟩ := h.inv.shard _ ht
  exact hr.holds.slotOf_ne (by decide) hroom hnonempty

/-- A run of accesses looks like a run of the pipeline: the memory is that of such a run, apart
from an order that is copied in; the orders are delivered as in such a run; and a thread never
copies out of the slot that the producer copies into. -/
structure Atomic (orders : OrderArray) (numThreads : ℕ) (s : AccessRun) : Prop where
  pipeline : ∃ taken c, run (RoutedRun.step orders numThreads) RoutedRun.start taken = some c ∧
    s.pipeline = c.written s.push
  delivers : s.pipeline.Delivers orders numThreads
  slotOf_ne : ∀ t < numThreads, ∀ msg next head tail, s.push = .copyIn ⟨t, msg, next⟩ head →
    s.pop t = .copyOut tail →
    SpscQueue.slotOf queueExponent tail ≠ SpscQueue.slotOf queueExponent head

/-- However the loads, copies and stores of all threads interleave, the routed pipeline behaves as
if every push, every pop and every count of a queue were one step. -/
theorem routed_accesses_atomic (hthreads : 1 ≤ numThreads) {actions : List RoutedAction}
    (hrun : run (AccessRun.step orders numThreads) start actions = some s) :
    Atomic orders numThreads s := by
  obtain ⟨taken, c, hcoarse, h⟩ :=
    run_simulates (fun _ _ _ _ h hstep => h.step hstep) (start_refines orders numThreads) hrun
  exact ⟨⟨taken, c, hcoarse, h.memory⟩, h.delivers hthreads, fun t ht msg next head tail hpush hpop =>
    h.slotOf_ne hpush hpop ht⟩

/-- One thread pops while the producer pushes into its queue; the other thread comes later. -/
def overlappingRun : List RoutedAction :=
  List.replicate 3 .route ++ (List.replicate 11 [.route, .thread 0]).flatten ++
    List.replicate 10 (.thread 1) ++ List.replicate 2 (.thread 0)

/-- Both threads leave their loops, and together they count both orders. -/
theorem overlappingRun_delivered :
    ∃ s, run (AccessRun.step RoutedRun.twoOrders 2) start overlappingRun = some s ∧
      ∑ t ∈ Finset.range 2, s.pipeline.threadMessageCounts t = 2 := by
  have hends : (run (AccessRun.step RoutedRun.twoOrders 2) start overlappingRun).any
      (fun s => ∀ t < 2, (s.pipeline.consumers t).pc = .exited) = true := by decide +kernel
  obtain ⟨s, hrun, hpc⟩ := (Option.any_eq_true _ _).mp hends
  exact ⟨s, hrun, (routed_accesses_atomic (by decide) hrun).delivers.counts (of_decide_eq_true hpc)⟩

end AccessRun

end NanoRing
