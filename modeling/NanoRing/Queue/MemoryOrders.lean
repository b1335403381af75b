import NanoRing.Queue.OrderedQueue

/-!
# The queue under its memory orders

The slots of the queue are not atomic, so they are safe only if the indices carry from one side to the
other what has been done with them. They do: the queue is first in, first out all the same, and every
copy of an item knows of the copies of the other side that it must not overlap.
-/

namespace NanoRing

open MemoryOrder Schedule

namespace OrderedRun

variable {w : ℕ} {α : Type} {exponent : ℕ} {s s' : OrderedRun w α} {i : ℕ}

/-! ### The invariant -/

/-- A slot that is about to be copied into is free in an index that the producer has loaded. -/
def RoomSeen (exponent : ℕ) (s : OrderedRun w α) : Prop :=
  match s.threads.producer with
  | .copyIn _ _ => s.threads.pushed.length < s.memory.seen .producer .tail + 2 ^ exponent
  | _ => True

/-- A slot that is about to be copied out of is filled in an index that the consumer has loaded. -/
def ItemSeen (s : OrderedRun w α) : Prop :=
  match s.threads.consumer with
  | .copyOut _ => s.threads.popped.length < s.memory.seen .consumer .head
  | _ => True

theorem RoomSeen.mono (h : RoomSeen exponent s) (hproducer : s'.threads.producer = s.threads.producer)
    (hpushed : s'.threads.pushed = s.threads.pushed)
    (hseen : s.memory.seen .producer .tail ≤ s'.memory.seen .producer .tail) :
    RoomSeen exponent s' := by
  unfold RoomSeen at h ⊢
  rw [hproducer, hpushed]
  split at h
  · exact h.trans_le (Nat.add_le_add_right hseen _)
  · trivial

theorem ItemSeen.mono (h : ItemSeen s) (hconsumer : s'.threads.consumer = s.threads.consumer)
    (hpopped : s'.threads.popped = s.threads.popped)
    (hseen : s.memory.seen .consumer .head ≤ s'.memory.seen .consumer .head) : ItemSeen s' := by
  unfold ItemSeen at h ⊢
  rw [hconsumer, hpopped]
  split at h
  · exact h.trans_le hseen
  · trivial

variable [Inhabited α]

/-- What holds in every state. Both sides publish how far they have come. -/
structure Inv (exponent : ℕ) (s : OrderedRun w α) : Prop where
  threads : s.threads.Inv exponent
  past : s.memory.Past
  fills : Publishes s.memory .producer .head .copiedIn (fun j => j % 2 ^ exponent) (position w)
    s.threads.pushed.length s.threads.copied.length
  empties : Publishes s.memory .consumer .tail .copiedOut (fun j => j % 2 ^ exponent) (position w)
    s.threads.popped.length s.threads.copiedOut
  room : RoomSeen exponent s
  filled : ItemSeen s

theorem start_inv (exponent : ℕ) : Inv exponent (start : OrderedRun w α) where
  threads := SpscRun.start_inv exponent
  past := Memory.start_past _
  fills := start_publishes rfl
  empties := start_publishes rfl
  room := trivial
  filled := trivial

/-! ### Steps of the producer -/

/-- The producer's test of an old index of the consumer. -/
theorem Inv.isFull_position (h : Inv exponent s) (hcapacity : exponent < w)
    (hle : i ≤ s.threads.popped.length) :
    SpscQueue.isFull exponent s.threads.queue.head (position w i) = true ↔
      i + 2 ^ exponent ≤ s.threads.pushed.length := by
  have hhead := h.threads.head_eq
  have hpopped := h.threads.popped.length_le
  have hwidth := s.threads.queue.head.isLt
  have hposition : (position w i).toNat = i := SpscQueue.toNat_position (by omega)
  rw [SpscQueue.isFull_iff_toNat hcapacity (BitVec.le_def.mpr (by omega)), hposition, hhead]

/-- A load changes what the producer is about to do, and nothing that either side has published. -/
theorem Inv.setProducer (h : Inv exponent s) {threads : SpscRun w α}
    {m : Memory QueueThread QueuePlace (BitVec w)} (hthreads : threads.Inv exponent)
    (hpushed : threads.pushed = s.threads.pushed) (hcopied : threads.copied = s.threads.copied)
    (hconsumer : threads.consumer = s.threads.consumer) (hpopped : threads.popped = s.threads.popped)
    (hmemory : m = s.memory ∨ ∃ i, m = s.memory.acquire .producer .tail i)
    (hroom : RoomSeen exponent ⟨threads, m⟩) : Inv exponent ⟨threads, m⟩ := by
  have hout : threads.copiedOut = s.threads.copiedOut := by
    rw [SpscRun.copiedOut, SpscRun.copiedOut, hconsumer, hpopped]
  have hfills := h.fills
  have hempties := h.empties
  rw [← hpushed, ← hcopied] at hfills
  rw [← hpopped, ← hout] at hempties
  obtain rfl | ⟨i, rfl⟩ := hmemory
  · exact ⟨hthreads, h.past, hfills, hempties, hroom, h.filled.mono hconsumer hpopped le_rfl⟩
  · exact ⟨hthreads, h.past.acquire, hfills.acquire, hempties.acquire, hroom,
      h.filled.mono hconsumer hpopped (s.memory.seen_le_acquire _ _ _ _ _)⟩

theorem Inv.callPush (h : Inv exponent s) {call : PushCall} {item : α}
    (hstep : s.callPush call item i = some s') : Inv exponent s' := by
  unfold OrderedRun.callPush at hstep
  split at hstep
  · rename_i refused hpc
    obtain ⟨⟨head, memory⟩, hload, rfl⟩ := Option.map_eq_some_iff.mp hstep
    obtain ⟨rfl, rfl⟩ := h.fills.loadRelaxed hload
    have hhead : position w s.threads.pushed.length = s.threads.queue.head := by
      rw [← h.threads.head_eq, ← SpscQueue.eq_position]
    have hcall : s.threads.callPush call item =
        some { s.threads with producer := .loadTail call item s.threads.queue.head } := by
      rw [SpscRun.callPush, hpc]
    dsimp only
    rw [hhead]
    refine h.setProducer (h.threads.callPush hcall) rfl ?_ rfl rfl (.inl rfl) trivial
    rw [SpscRun.copied, SpscRun.copied, hpc]
  · contradiction

/-- A step of the producer, which may act on an old index, keeps the invariant. -/
theorem Inv.produce (h : Inv exponent s) (hcapacity : exponent < w)
    (hstep : s.produce exponent i = some s') (hbound : s'.threads.pushed.length < 2 ^ w) :
    Inv exponent s' := by
  have hsound := h.threads.producer
  unfold SpscRun.ProducerSound at hsound
  cases produces_of_step hstep with
  | refused hpc hload _ =>
    obtain ⟨-, -, -, hmemory⟩ := h.empties.loadAcquire hload
    have hcopied : SpscRun.copied { s.threads with producer := .idle true } = s.threads.copied := by
      rw [SpscRun.copied, SpscRun.copied, hpc]
    exact h.setProducer (h.threads.setProducer hcopied trivial) rfl hcopied rfl rfl
      (.inr ⟨i, hmemory⟩) trivial
  | spun hpc hload =>
    obtain ⟨-, -, -, hmemory⟩ := h.empties.loadAcquire hload
    refine h.setProducer h.threads rfl rfl rfl rfl (.inr ⟨i, hmemory⟩) ?_
    rw [RoomSeen, hpc]
    trivial
  | @admitted _ item _ _ _ hpc hload hroom =>
    rw [hpc] at hsound
    obtain rfl := hsound
    obtain ⟨rfl, hle, hseen, hmemory⟩ := h.empties.loadAcquire hload
    have hlt : s.threads.pushed.length < i + 2 ^ exponent :=
      Nat.lt_of_not_le fun hfull => hroom ((h.isFull_position hcapacity hle).mpr hfull)
    have hcopied : SpscRun.copied { s.threads with producer := .copyIn item s.threads.queue.head } =
        s.threads.copied := by
      rw [SpscRun.copied, SpscRun.copied, hpc]
    refine h.setProducer (h.threads.setProducer hcopied ⟨rfl, ?_⟩) rfl hcopied rfl rfl
      (.inr ⟨i, hmemory⟩) (hlt.trans_eq (congrArg (· + 2 ^ exponent) hseen.symm))
    exact hlt.trans_le (Nat.add_le_add_right hle _)
  | @copiedIn item _ hpc =>
    rw [hpc] at hsound
    obtain ⟨rfl, hroom⟩ := hsound
    have hthreads := h.threads.produce hcapacity (by rw [SpscRun.produce, hpc]) hbound
    have hcopied : s.threads.copied = s.threads.pushed := by rw [SpscRun.copied, hpc]
    have hslot : SpscQueue.slotOf exponent s.threads.queue.head =
        s.threads.copied.length % 2 ^ exponent := by
      rw [SpscQueue.slotOf_eq hcapacity, h.threads.head_eq, hcopied]
    have hfills := h.fills.access_next h.past (fun _ _ => QueuePlace.copiedIn.inj)
      QueuePlace.copiedIn_ne_head
    rw [← hslot, hcopied] at hfills
    refine ⟨hthreads, h.past.event, ?_, ?_, trivial, h.filled.mono rfl rfl ?_⟩
    · change Publishes _ _ _ _ _ _ _ (s.threads.pushed ++ [item]).length
      rw [List.length_append]
      exact hfills
    · exact h.empties.event_of_ne h.past (QueuePlace.copiedIn_ne_tail _).symm
        fun slot => QueuePlace.copiedOut_ne_copiedIn slot _
    · exact h.past.seen_le_event _ _
  | @stored item _ hpc =>
    rw [hpc] at hsound
    obtain ⟨rfl, hroom⟩ := hsound
    have hthreads := h.threads.produce hcapacity (by rw [SpscRun.produce, hpc]) hbound
    have hcopied : s.threads.copied.length = s.threads.pushed.length + 1 := by
      rw [SpscRun.copied, hpc, List.length_append, List.length_singleton]
    have hindex : s.threads.queue.head + 1 = position w (s.threads.pushed.length + 1) :=
      h.threads.head_eq ▸ SpscQueue.succ_eq_position _
    have hfills := h.fills.store_next QueuePlace.copiedIn_ne_head hcopied.ge hindex
    rw [hcopied] at hfills
    refine ⟨hthreads, h.past.storeRelease, ?_, ?_, trivial, h.filled.mono rfl rfl ?_⟩
    · change Publishes _ _ _ _ _ _ (s.threads.pushed ++ [item]).length
        (s.threads.pushed ++ [item]).length
      rw [List.length_append]
      exact hfills
    · exact h.empties.storeRelease_of_ne h.past (by decide) QueuePlace.copiedOut_ne_head
    · exact h.past.seen_le_storeRelease _ _

/-! ### Steps of the consumer -/

/-- A load changes what the consumer is about to do, and nothing that either side has published. -/
theorem Inv.setConsumer (h : Inv exponent s) {pc : PopPc w α}
    {m : Memory QueueThread QueuePlace (BitVec w)}
    (hthreads : SpscRun.Inv exponent { s.threads with consumer := pc })
    (hout : SpscRun.copiedOut { s.threads with consumer := pc } = s.threads.copiedOut)
    (hmemory : m = s.memory ∨ ∃ i, m = s.memory.acquire .consumer .head i)
    (hfilled : ItemSeen ⟨{ s.threads with consumer := pc }, m⟩) :
    Inv exponent ⟨{ s.threads with consumer := pc }, m⟩ := by
  have hempties := h.empties
  rw [← hout] at hempties
  obtain rfl | ⟨i, rfl⟩ := hmemory
  · exact ⟨hthreads, h.past, h.fills, hempties, h.room.mono rfl rfl le_rfl, hfilled⟩
  · exact ⟨hthreads, h.past.acquire, h.fills.acquire, hempties.acquire,
      h.room.mono rfl rfl (s.memory.seen_le_acquire _ _ _ _ _), hfilled⟩

theorem Inv.callPop (h : Inv exponent s) (hstep : s.callPop i = some s') : Inv exponent s' := by
  unfold OrderedRun.callPop at hstep
  split at hstep
  · rename_i refused hpc
    obtain ⟨⟨tail, memory⟩, hload, rfl⟩ := Option.map_eq_some_iff.mp hstep
    obtain ⟨rfl, rfl⟩ := h.empties.loadRelaxed hload
    have htail : position w s.threads.popped.length = s.threads.queue.tail := by
      rw [← h.threads.tail_eq, ← SpscQueue.eq_position]
    have hcall : s.threads.callPop =
        some { s.threads with consumer := .loadHead s.threads.queue.tail } := by
      rw [SpscRun.callPop, hpc]
    dsimp only
    rw [htail]
    refine h.setConsumer (h.threads.callPop hcall) ?_ (.inl rfl) trivial
    rw [SpscRun.copiedOut, SpscRun.copiedOut, hpc]
  · contradiction

/-- The consumer's test of an old index of the producer. -/
theorem Inv.isEmpty_position (h : Inv exponent s) (hpushed : s.threads.pushed.length < 2 ^ w)
    (hle : i ≤ s.threads.pushed.length) :
    SpscQueue.isEmpty (position w i) s.threads.queue.tail = true ↔ i ≤ s.threads.popped.length := by
  rw [SpscQueue.isEmpty_iff_toNat, SpscQueue.toNat_position (hle.trans_lt hpushed), h.threads.tail_eq]

/-- A step of the consumer, which may act on an old index, keeps the invariant. -/
theorem Inv.consume (h : Inv exponent s) (hcapacity : exponent < w)
    (hpushed : s.threads.pushed.length < 2 ^ w) (hstep : s.consume exponent i = some s') :
    Inv exponent s' := by
  have hsound := h.threads.consumer
  unfold SpscRun.ConsumerSound at hsound
  cases consumes_of_step hstep with
  | refused hpc hload _ =>
    obtain ⟨-, -, -, hmemory⟩ := h.fills.loadAcquire hload
    refine h.setConsumer (h.threads.setConsumer trivial) ?_ (.inr ⟨i, hmemory⟩) trivial
    rw [SpscRun.copiedOut, SpscRun.copiedOut, hpc]
  | admitted hpc hload hnonempty =>
    rw [hpc] at hsound
    obtain rfl := hsound
    obtain ⟨rfl, hle, hseen, hmemory⟩ := h.fills.loadAcquire hload
    have hlt : s.threads.popped.length < i :=
      Nat.lt_of_not_le fun hempty => hnonempty ((h.isEmpty_position hpushed hle).mpr hempty)
    refine h.setConsumer (h.threads.setConsumer ⟨rfl, hlt.trans_le hle⟩) ?_ (.inr ⟨i, hmemory⟩)
      (hlt.trans_eq hseen.symm)
    rw [SpscRun.copiedOut, SpscRun.copiedOut, hpc]
  | copiedOut hpc =>
    rw [hpc] at hsound
    obtain ⟨rfl, hlt⟩ := hsound
    have hthreads := h.threads.consume hcapacity (by rw [SpscRun.consume, hpc])
    have hout : s.threads.copiedOut = s.threads.popped.length := by rw [SpscRun.copiedOut, hpc]
    have hslot : SpscQueue.slotOf exponent s.threads.queue.tail =
        s.threads.copiedOut % 2 ^ exponent := by
      rw [SpscQueue.slotOf_eq hcapacity, h.threads.tail_eq, hout]
    have hempties := h.empties.access_next h.past (fun _ _ => QueuePlace.copiedOut.inj)
      QueuePlace.copiedOut_ne_tail
    rw [← hslot, hout] at hempties
    refine ⟨hthreads, h.past.event, ?_, hempties, h.room.mono rfl rfl ?_, trivial⟩
    · exact h.fills.event_of_ne h.past (QueuePlace.copiedOut_ne_head _).symm
        fun slot => (QueuePlace.copiedOut_ne_copiedIn _ slot).symm
    · exact h.past.seen_le_event _ _
  | @stored _ item hpc =>
    rw [hpc] at hsound
    obtain ⟨rfl, hitem⟩ := hsound
    have hthreads := h.threads.consume hcapacity (by rw [SpscRun.consume, hpc])
    have hout : s.threads.copiedOut = s.threads.popped.length + 1 := by rw [SpscRun.copiedOut, hpc]
    have hindex : s.threads.queue.tail + 1 = position w (s.threads.popped.length + 1) :=
      h.threads.tail_eq ▸ SpscQueue.succ_eq_position _
    have hempties := h.empties.store_next QueuePlace.copiedOut_ne_tail hout.ge hindex
    rw [hout] at hempties
    refine ⟨hthreads, h.past.storeRelease, ?_, ?_, h.room.mono rfl rfl ?_, trivial⟩
    · exact h.fills.storeRelease_of_ne h.past (by decide) QueuePlace.copiedIn_ne_tail
    · change Publishes _ _ _ _ _ _ (s.threads.popped ++ [item]).length
        (s.threads.popped ++ [item]).length
      rw [List.length_append]
      exact hempties
    · exact h.past.seen_le_storeRelease _ _

/-! ### Order -/

/-- Where a copy uses a slot again, the index that its thread has loaded tells of the last use. -/
theorem Inv.inOrder (h : Inv exponent s) (hcapacity : exponent < w) : s.InOrder exponent where
  copyIn := by
    intro item head hpc
    have hin := h.threads.producer
    have hroom := h.room
    have hcopied := h.threads.consumer.copiedOut_le h.threads.popped.length_le
    rw [SpscRun.ProducerSound, hpc] at hin
    rw [RoomSeen, hpc] at hroom
    obtain ⟨rfl, -⟩ := hin
    rw [SpscQueue.slotOf_eq hcapacity, h.threads.head_eq]
    refine ⟨h.fills.own_access _, h.empties.knows le_rfl fun j hj hlt => ?_⟩
    exact RingWindow.slot_ne (hlt.trans_le hcopied) (hroom.trans_le (Nat.add_le_add_right hj _))
  copyOut := by
    intro tail hpc
    have hout := h.threads.consumer
    have hfilled := h.filled
    have hcopied := h.threads.producer.copied_le h.threads.pushed_le
    rw [SpscRun.ConsumerSound, hpc] at hout
    rw [ItemSeen, hpc] at hfilled
    obtain ⟨rfl, -⟩ := hout
    rw [SpscQueue.slotOf_eq hcapacity, h.threads.tail_eq]
    refine h.fills.knows le_rfl fun j hj hlt => (RingWindow.slot_ne ?_ ?_).symm
    · exact hfilled.trans_le hj
    · exact hlt.trans_le hcopied

/-- A pop that is refused has loaded an index that is not ahead. -/
theorem Inv.pop_refused (h : Inv exponent s) (hpushed : s.threads.pushed.length < 2 ^ w)
    (hstep : s.consume exponent i = some s') (hrefused : s'.threads.consumer = .idle true) :
    s'.memory.seen .consumer .head ≤ s'.threads.popped.length := by
  have hsound := h.threads.consumer
  unfold SpscRun.ConsumerSound at hsound
  cases consumes_of_step hstep with
  | refused hpc hload hempty =>
    rw [hpc] at hsound
    obtain rfl := hsound
    obtain ⟨rfl, hle, hseen, -⟩ := h.fills.loadAcquire hload
    exact hseen.trans_le ((h.isEmpty_position hpushed hle).mp hempty)
  | admitted | copiedOut => contradiction
  | stored => exact absurd (PopPc.idle.inj hrefused) Bool.false_ne_true

/-- A push that is refused has loaded an index that is a capacity behind. -/
theorem Inv.push_refused (h : Inv exponent s) (hcapacity : exponent < w)
    (hstep : s.produce exponent i = some s') (hrefused : s'.threads.producer = .idle true) :
    s'.memory.seen .producer .tail + 2 ^ exponent ≤ s'.threads.pushed.length := by
  have hsound := h.threads.producer
  unfold SpscRun.ProducerSound at hsound
  cases produces_of_step hstep with
  | refused hpc hload hfull =>
    rw [hpc] at hsound
    obtain rfl := hsound
    obtain ⟨rfl, hle, hseen, -⟩ := h.empties.loadAcquire hload
    exact (Nat.add_le_add_right hseen.le _).trans ((h.isFull_position hcapacity hle).mp hfull)
  | spun hpc => cases hpc.symm.trans hrefused
  | admitted | copiedIn => contradiction
  | stored => exact absurd (PushPc.idle.inj hrefused) Bool.false_ne_true

theorem Inv.suffices (h : Inv exponent s) (hcapacity : exponent < w)
    (hpushed : s.threads.pushed.length < 2 ^ w) : Suffices exponent s where
  popped := h.threads.popped
  pushed_le := h.threads.pushed_le
  inOrder := h.inOrder hcapacity
  pop_refused := fun _ _ hstep hrefused => h.pop_refused hpushed hstep hrefused
  push_refused := fun _ _ hstep hrefused => h.push_refused hcapacity hstep hrefused

/-! ### Runs -/

omit [Inhabited α] in
/-- No step takes a pushed item back. -/
theorem pushed_prefix_of_step {a : SpscAction α × ℕ} (h : s.step exponent a = some s') :
    s.threads.pushed <+: s'.threads.pushed := by
  obtain ⟨action, i⟩ := a
  cases action with
  | callPush call item =>
    rw [step, callPush] at h
    split at h
    · obtain ⟨-, -, rfl⟩ := Option.map_eq_some_iff.mp h
      exact List.prefix_rfl
    · contradiction
  | produce =>
    cases produces_of_step h with
    | refused | spun | admitted | copiedIn => exact List.prefix_rfl
    | stored => exact List.prefix_append _ _
  | callPop =>
    rw [step, callPop] at h
    split at h
    · obtain ⟨-, -, rfl⟩ := Option.map_eq_some_iff.mp h
      exact List.prefix_rfl
    · contradiction
  | consume =>
    cases consumes_of_step h with
    | refused | admitted | copiedOut | stored => exact List.prefix_rfl

/-- The invariant holds until the write position wraps. -/
def Sound (exponent : ℕ) (s : OrderedRun w α) : Prop :=
  s.threads.pushed.length < 2 ^ w → Inv exponent s

theorem Sound.step (h : Sound exponent s) (hcapacity : exponent < w) {a : SpscAction α × ℕ}
    (hstep : s.step exponent a = some s') : Sound exponent s' := by
  intro hbound
  have hpushed := (pushed_prefix_of_step hstep).length_le.trans_lt hbound
  have hinv := h hpushed
  obtain ⟨action, i⟩ := a
  cases action with
  | callPush call item => exact hinv.callPush hstep
  | produce => exact hinv.produce hcapacity hstep hbound
  | callPop => exact hinv.callPop hstep
  | consume => exact hinv.consume hcapacity hpushed hstep

/-- Whatever old indices the two sides load, as long as the write position does not wrap the memory
orders of the queue suffice. -/
theorem memory_orders_suffice (hcapacity : exponent < 64) {s : OrderedRun 64 α}
    {actions : List (SpscAction α × ℕ)} (hrun : run (OrderedRun.step exponent) start actions = some s)
    (hpushed : s.threads.pushed.length < 2 ^ 64) : Suffices exponent s := by
  have hsound : Sound exponent s :=
    run_invariant (fun _ _ _ ih hstep => ih.step hcapacity hstep) (fun _ => start_inv exponent) hrun
  exact (hsound hpushed).suffices hcapacity hpushed

/-- In a queue of two slots, a pop that loads the first store of `head_` is refused although an item
has been pushed, and the next one, which loads the last store, finds it. -/
def staleLoad : List (SpscAction ℕ × ℕ) :=
  [(.callPush .push 7, 0), (.produce, 0), (.produce, 0), (.produce, 0), (.callPop, 0), (.consume, 0),
    (.callPop, 0), (.consume, 1)]

theorem staleLoad_suffices :
    ∃ s : OrderedRun 64 ℕ, run (OrderedRun.step 1) start staleLoad = some s ∧
      s.threads.consumer = .copyOut 0 ∧ Suffices 1 s := by
  refine ⟨_, rfl, rfl, memory_orders_suffice ?_ (rfl : run _ start staleLoad = some _) ?_⟩
  · decide
  · decide

end OrderedRun

end NanoRing
