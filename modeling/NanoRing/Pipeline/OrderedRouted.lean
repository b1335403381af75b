import NanoRing.Pipeline.RoutedAccesses
import NanoRing.Queue.OrderedQueue

/-!
# Accesses of the routed pipeline that may be out of date

Every queue of the pipeline loads and stores its indices under the memory orders of the queue, and
the producer stores `producer_done` with release when it has pushed everything. Any load of what
another thread stores may be an old one.
-/

namespace NanoRing

open MemoryOrder Schedule

/-- The places of each queue, and the flag, which is stored as a 1. -/
inductive RoutedPlace
  | queue (t : ℕ) (place : QueuePlace)
  | done
deriving DecidableEq

abbrev RoutedMemory : Type := Memory PipelineThread RoutedPlace (BitVec 64)

/-- The pipeline with what has been stored last, and what each thread has seen of it. -/
structure OrderedRoutedRun where
  accesses : AccessRun
  memory : RoutedMemory

/-- The state with one book thread outside its calls, at another place in its loop. -/
def AccessRun.goTo (s : AccessRun) (t : ℕ) (pc : RoutedConsumerPc) : AccessRun :=
  { s.setPop t .outside with
    pipeline := s.pipeline.setConsumer t { s.pipeline.consumers t with pc := pc } }

namespace OrderedRoutedRun

def start : OrderedRoutedRun where
  accesses := .start
  memory := .start fun _ => 0

/-- The next access of the producer, which may load a store `i`. -/
def routeStep (orders : OrderArray) (numThreads : ℕ) (s : OrderedRoutedRun) (i : ℕ) :
    Option OrderedRoutedRun :=
  match s.accesses.push with
  | .outside =>
    match s.accesses.pipeline.pushCall numThreads with
    | some call =>
      (s.memory.loadRelaxed .producer (.queue call.shard .head) i).map fun (h, memory) =>
        ⟨{ s.accesses with push := .loadTail call h }, memory⟩
    | none =>
      (s.accesses.pipeline.routeStep orders numThreads).map fun pipeline =>
        ⟨{ s.accesses with pipeline := pipeline },
          if pipeline.producerDone then s.memory.storeRelease .producer .done 1 else s.memory⟩
  | .loadTail call h =>
    (s.memory.loadAcquire .producer (.queue call.shard .tail) i).map fun (t, memory) =>
      if SpscQueue.isFull queueExponent h t then ⟨s.accesses, memory⟩
      else ⟨{ s.accesses with push := .copyIn call h }, memory⟩
  | .copyIn call h =>
    some ⟨{ s.accesses with
        pipeline := s.accesses.pipeline.setQueue call.shard
          ((s.accesses.pipeline.queues call.shard).copyIn queueExponent h call.msg)
        push := .storeHead call h },
      s.memory.event .producer (.queue call.shard (.copiedIn (SpscQueue.slotOf queueExponent h)))⟩
  | .storeHead call h =>
    some ⟨{ s.accesses with
        pipeline := { s.accesses.pipeline.setQueue call.shard
          { s.accesses.pipeline.queues call.shard with head := h + 1 } with router := call.next }
        push := .outside },
      s.memory.storeRelease .producer (.queue call.shard .head) (h + 1)⟩

/-- The next access of book thread `t`, which may load a store `i`. -/
def threadStep (s : OrderedRoutedRun) (t i : ℕ) : Option OrderedRoutedRun :=
  let consumer := s.accesses.pipeline.consumers t
  let queue := s.accesses.pipeline.queues t
  match s.accesses.pop t with
  | .outside =>
    match consumer.pc with
    | .popping =>
      (s.memory.loadRelaxed (.book t) (.queue t .tail) i).map fun (tail, memory) =>
        ⟨s.accesses.setPop t (.loadHead tail), memory⟩
    | .testDone =>
      (s.memory.loadAcquire (.book t) .done i).map fun (done, memory) =>
        ⟨s.accesses.goTo t (if done = 0 then .popping else .testAvailable), memory⟩
    | .testAvailable =>
      (s.memory.loadAcquire (.book t) (.queue t .head) i).map fun (head, memory) =>
        ⟨s.accesses.setPop t (.loadTail head), memory⟩
    | _ =>
      (s.accesses.pipeline.threadStep t).map fun pipeline =>
        ⟨{ s.accesses with pipeline := pipeline }, s.memory⟩
  | .loadHead tail =>
    (s.memory.loadAcquire (.book t) (.queue t .head) i).map fun (head, memory) =>
      if SpscQueue.isEmpty head tail then ⟨s.accesses.goTo t .testDone, memory⟩
      else ⟨s.accesses.setPop t (.copyOut tail), memory⟩
  | .copyOut tail =>
    some ⟨s.accesses.setPop t (.storeTail tail (queue.copyOut queueExponent tail)),
      s.memory.event (.book t) (.queue t (.copiedOut (SpscQueue.slotOf queueExponent tail)))⟩
  | .storeTail tail order =>
    some ⟨{ s.accesses.setPop t .outside with
        pipeline := (s.accesses.pipeline.setQueue t { queue with tail := tail + 1 }).setConsumer t
          { consumer with pc := .applying order } },
      s.memory.storeRelease (.book t) (.queue t .tail) (tail + 1)⟩
  | .loadTail head =>
    (s.memory.loadRelaxed (.book t) (.queue t .tail) i).map fun (tail, memory) =>
      if head - tail = 0 then
        ⟨{ s.accesses.setPop t .outside with
            pipeline := { s.accesses.pipeline.setConsumer t { consumer with pc := .exited } with
              threadMessageCounts := Function.update s.accesses.pipeline.threadMessageCounts t
                consumer.localCount } },
          memory⟩
      else ⟨s.accesses.goTo t .popping, memory⟩

/-- One access of the pipeline, and the store that it loads if it loads one. -/
def step (orders : OrderArray) (numThreads : ℕ) (s : OrderedRoutedRun) :
    RoutedAction × ℕ → Option OrderedRoutedRun
  | (.route, i) => s.routeStep orders numThreads i
  | (.thread t, i) => if t < numThreads then s.threadStep t i else none

/-- The orders are delivered, and each copy of an order happens after every copy that is in conflict
with it: a copy into a slot after all that was done with the slot, a copy out of it after the copies
into it. -/
structure Suffices (orders : OrderArray) (numThreads : ℕ) (s : OrderedRoutedRun) : Prop where
  delivers : s.accesses.pipeline.Delivers orders numThreads
  copyIn : ∀ call h, s.accesses.push = .copyIn call h →
    s.memory.Knows .producer (.queue call.shard (.copiedIn (SpscQueue.slotOf queueExponent h))) ∧
      s.memory.Knows .producer (.queue call.shard (.copiedOut (SpscQueue.slotOf queueExponent h)))
  copyOut : ∀ t < numThreads, ∀ tail, s.accesses.pop t = .copyOut tail →
    s.memory.Knows (.book t) (.queue t (.copiedIn (SpscQueue.slotOf queueExponent tail)))

end OrderedRoutedRun

/-! ## What the accesses keep -/

/-- A push that has copied its order into the queue of shard `t` and not yet stored `head_`. -/
def PushAccess.filling (t : ℕ) : PushAccess → ℕ
  | .storeHead call _ => if call.shard = t then 1 else 0
  | _ => 0

/-- A pop that has copied its order and not yet stored `tail_`. -/
def PopAccess.emptying : PopAccess → ℕ
  | .storeTail _ _ => 1
  | _ => 0

namespace RoutedRun

variable {orders : OrderArray} {numThreads : ℕ} {c : RoutedRun} {call : PushOrder}

/-- What is pushed next is the next order of the batch. -/
theorem unpushed_of_pushCall (h : c.pushCall numThreads = some call) :
    ∃ rest, c.unpushed call.shard = call.msg :: rest := by
  unfold pushCall at h
  unfold unpushed
  cases hrouter : c.router with
  | pushing i shard j =>
    rw [hrouter] at h
    obtain ⟨msg, hmsg, rfl⟩ := Option.map_eq_some_iff.mp h
    exact ⟨_, (if_pos rfl).trans (drop_eq_cons hmsg)⟩
  | flushing shard j =>
    rw [hrouter] at h
    obtain ⟨-, hcall⟩ := Option.ite_none_right_eq_some.mp h
    obtain ⟨msg, hmsg, rfl⟩ := Option.map_eq_some_iff.mp hcall
    exact ⟨_, ((if_neg (lt_irrefl _)).trans (if_pos rfl)).trans (drop_eq_cons hmsg)⟩
  | routing i | finished =>
    rw [hrouter] at h
    contradiction

/-- What is pushed is pushed into the queue of a book thread. -/
theorem Batched.shard_lt (h : Batched orders numThreads c)
    (hcall : c.pushCall numThreads = some call) : call.shard < numThreads := by
  have hwithin := h.within
  unfold pushCall at hcall
  cases hrouter : c.router with
  | pushing i shard j =>
    rw [hrouter] at hcall hwithin
    obtain ⟨msg, -, rfl⟩ := Option.map_eq_some_iff.mp hcall
    exact hwithin.2
  | flushing shard j =>
    rw [hrouter] at hcall
    obtain ⟨hlt, hcall⟩ := Option.ite_none_right_eq_some.mp hcall
    obtain ⟨msg, -, rfl⟩ := Option.map_eq_some_iff.mp hcall
    exact hlt
  | routing i | finished =>
    rw [hrouter] at hcall
    contradiction

theorem Batched.setConsumer (h : Batched orders numThreads c) (t : ℕ) (consumer : RoutedConsumer) :
    Batched orders numThreads (c.setConsumer t consumer) := ⟨h.within, h.room⟩

/-- A shard has fewer than `2 ^ 64` orders, so the write position of its queue does not wrap. -/
theorem Inv.head_succ_lt (h : Inv orders numThreads c) (hcall : c.pushCall numThreads = some call)
    (ht : call.shard < numThreads) : (c.queues call.shard).head.toNat + 1 < 2 ^ 64 := by
  obtain ⟨popped, pushed, hr, -⟩ := h.shard _ ht
  obtain ⟨rest, hunpushed⟩ := unpushed_of_pushCall hcall
  obtain ⟨hlt, -⟩ := List.getElem?_eq_some_iff.mp (hr.next hunpushed)
  rw [hr.holds.head_eq]
  exact (Nat.succ_le_of_lt hlt).trans_lt ((List.length_filter_le _ _).trans_lt orders.2)

/-- The producer pushes nothing after the flag. -/
theorem Inv.not_done_of_pushCall (h : Inv orders numThreads c)
    (hcall : c.pushCall numThreads = some call) : c.producerDone = false := by
  rw [Bool.eq_false_iff]
  intro hdone
  rw [pushCall, h.finished_of_done hdone] at hcall
  contradiction

end RoutedRun

namespace AccessRun

variable {orders : OrderArray} {numThreads : ℕ} {s : AccessRun} {c : RoutedRun} {t : ℕ}
  {call : PushOrder} {h' : BitVec 64}

theorem setPop_self (s : AccessRun) (t : ℕ) (pop : PopAccess) : (s.setPop t pop).pop t = pop :=
  Function.update_self _ _ _

theorem setPop_of_ne (s : AccessRun) {t' : ℕ} (h : t' ≠ t) (pop : PopAccess) :
    (s.setPop t pop).pop t' = s.pop t' := Function.update_of_ne h _ _

theorem Refines.queues_eq (h : Refines orders numThreads s c) (t : ℕ) :
    (s.pipeline.queues t).head = (c.queues t).head ∧
      (s.pipeline.queues t).tail = (c.queues t).tail := by
  rw [h.memory]
  exact c.written_queues s.push t

theorem Refines.consumers_eq (h : Refines orders numThreads s c) :
    s.pipeline.consumers = c.consumers := by
  rw [h.memory, RoutedRun.written_consumers]

theorem Refines.producerDone_eq (h : Refines orders numThreads s c) :
    s.pipeline.producerDone = c.producerDone := by
  rw [h.memory, RoutedRun.written_producerDone]

theorem Refines.tail_le_head (h : Refines orders numThreads s c) (ht : t < numThreads) :
    (s.pipeline.queues t).tail.toNat ≤ (s.pipeline.queues t).head.toNat := by
  obtain ⟨popped, pushed, hr, -⟩ := h.inv.shard t ht
  obtain ⟨hhead, htail⟩ := h.queues_eq t
  rw [hhead, htail, hr.holds.head_eq, hr.holds.tail_eq]
  exact hr.holds.popped_le

/-- What is copied in is at most a capacity ahead. -/
theorem Refines.filling_le (h : Refines orders numThreads s c) (ht : t < numThreads) :
    (s.pipeline.queues t).head.toNat + s.push.filling t ≤
      (s.pipeline.queues t).tail.toNat + 2 ^ queueExponent := by
  obtain ⟨popped, pushed, hr, -⟩ := h.inv.shard t ht
  obtain ⟨hhead, htail⟩ := h.queues_eq t
  rw [hhead, htail, hr.holds.head_eq, hr.holds.tail_eq]
  have hsound := h.push
  cases hpush : s.push with
  | outside | loadTail | copyIn => exact hr.holds.pushed_le
  | storeHead call head =>
    rw [PushAccess.filling]
    split
    · rename_i hshard
      subst hshard
      rw [hpush] at hsound
      obtain ⟨-, rfl, hroom⟩ := hsound
      exact Nat.lt_of_not_le fun hle => hroom ((hr.holds.isFull_iff (by decide)).mpr hle)
    · exact hr.holds.pushed_le

/-- What is copied out has been pushed. -/
theorem Refines.emptying_le (h : Refines orders numThreads s c) (ht : t < numThreads) :
    (s.pipeline.queues t).tail.toNat + (s.pop t).emptying ≤
      (s.pipeline.queues t).head.toNat := by
  obtain ⟨popped, pushed, hr, -⟩ := h.inv.shard t ht
  obtain ⟨hhead, htail⟩ := h.queues_eq t
  rw [hhead, htail, hr.holds.head_eq, hr.holds.tail_eq]
  have hsound := h.pop t ht
  cases hpop : s.pop t with
  | outside | loadHead | copyOut | loadTail => exact hr.holds.popped_le
  | storeTail tail order =>
    rw [hpop] at hsound
    obtain ⟨-, rfl, hnonempty, -⟩ := hsound
    exact hr.holds.popped_le.lt_of_ne fun heq => hnonempty (hr.holds.isEmpty_iff.mpr heq)

/-- A store of `head_` does not wrap. -/
theorem Refines.toNat_head_succ (h : Refines orders numThreads s c)
    (hpush : s.push = .storeHead call h') (ht : call.shard < numThreads) :
    (h' + 1).toNat = (s.pipeline.queues call.shard).head.toNat + 1 := by
  have hsound := h.push
  rw [hpush] at hsound
  obtain ⟨hcall, rfl, -⟩ := hsound
  rw [(h.queues_eq _).1]
  exact SpscQueue.toNat_succ (by decide) (h.inv.head_succ_lt hcall ht)

/-- A pop goes on with the `tail_` that it has loaded until it stores the next one. -/
theorem Refines.tail_of_pop (h : Refines orders numThreads s c) (ht : t < numThreads)
    {tail : BitVec 64}
    (hpop : s.pop t = .copyOut tail ∨ ∃ order, s.pop t = .storeTail tail order) :
    tail = (s.pipeline.queues t).tail := by
  have hsound := h.pop t ht
  rw [(h.queues_eq t).2]
  obtain hpop | ⟨order, hpop⟩ := hpop
  · rw [hpop] at hsound
    exact hsound.2.1
  · rw [hpop] at hsound
    exact hsound.2.1

/-- A store of `tail_` does not wrap. -/
theorem Refines.toNat_tail_succ (h : Refines orders numThreads s c) {tail : BitVec 64}
    {order : DecodedOrder} (hpop : s.pop t = .storeTail tail order) (ht : t < numThreads) :
    (tail + 1).toNat = (s.pipeline.queues t).tail.toNat + 1 := by
  have hle := h.emptying_le ht
  have hsound := h.pop t ht
  rw [hpop] at hsound hle
  obtain ⟨-, rfl, -⟩ := hsound
  rw [← (h.queues_eq t).2]
  exact SpscQueue.toNat_succ (by decide) (hle.trans_lt (s.pipeline.queues t).head.isLt)

/-- A thread may look into its queue again at any time, and look at the flag instead of waiting. -/
theorem Refines.goTo (h : Refines orders numThreads s c) {pc : RoutedConsumerPc}
    (hhand : RoutedRun.inHand (s.pipeline.consumers t) = [])
    (hhand' : RoutedRun.inHand { s.pipeline.consumers t with pc := pc } = [])
    (hdone : pc = .testAvailable → s.pipeline.producerDone = true) (hexited : pc ≠ .exited) :
    Refines orders numThreads (s.goTo t pc) (c.setConsumer t { c.consumers t with pc := pc }) := by
  rw [h.consumers_eq] at hhand hhand'
  rw [h.producerDone_eq] at hdone
  refine ⟨h.inv.setPc hhand hhand' hdone hexited, ?_,
    h.push.mono rfl rfl (fun _ => rfl) fun _ hroom => hroom, ?_⟩
  · rw [AccessRun.goTo, h.consumers_eq, h.memory, RoutedRun.written_setConsumer]
    rfl
  · exact (Function.forall_update_iff s.pop (p := fun t' pop => t' < numThreads →
      RoutedRun.PopSound _ t' pop)).mpr ⟨fun _ => trivial, fun t' hne ht' =>
        (h.pop t' ht').congr (RoutedRun.setConsumer_of_ne hne _) rfl⟩

end AccessRun

end NanoRing
