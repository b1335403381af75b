import NanoRing.Queue.SpscRun

/-!
# The queue is first in, first out

Each side holds an exact copy of its own index and acts on an old value of the other one. An old
value is on the safe side: the consumer only ever makes more room, and the producer only ever
makes more items available. So what a test has found stays true until the index is stored.
-/

namespace NanoRing

open Schedule

namespace SpscRun

variable {w : ℕ} {α : Type} {exponent : ℕ} {s s' : SpscRun w α}

/-- The items whose copy into a slot is complete. -/
def copied (s : SpscRun w α) : List α :=
  match s.producer with
  | .storeHead item _ => s.pushed ++ [item]
  | _ => s.pushed

/-- The item of a sequence number. -/
def itemAt [Inhabited α] (items : List α) (i : ℕ) : α := items.getD i default

/-- What the producer has loaded and found still holds. -/
def ProducerSound (exponent : ℕ) (s : SpscRun w α) : Prop :=
  match s.producer with
  | .idle _ => True
  | .loadTail _ _ h => h = s.queue.head
  | .copyIn _ h => h = s.queue.head ∧ s.pushed.length < s.popped.length + 2 ^ exponent
  | .storeHead _ h => h = s.queue.head ∧ s.pushed.length < s.popped.length + 2 ^ exponent

/-- What the consumer has loaded, found and copied is still right. -/
def ConsumerSound (s : SpscRun w α) : Prop :=
  match s.consumer with
  | .idle _ => True
  | .loadHead t => t = s.queue.tail
  | .copyOut t => t = s.queue.tail ∧ s.popped.length < s.pushed.length
  | .storeTail t item => t = s.queue.tail ∧ s.pushed[s.popped.length]? = some item

/-- What holds in every state, whatever either side is in the middle of. -/
structure Inv [Inhabited α] (exponent : ℕ) (s : SpscRun w α) : Prop where
  head_eq : s.queue.head.toNat = s.pushed.length
  tail_eq : s.queue.tail.toNat = s.popped.length
  popped : s.popped <+: s.pushed
  pushed_le : s.pushed.length ≤ s.popped.length + 2 ^ exponent
  window : RingWindow.Holds (2 ^ exponent) s.queue.slots (itemAt s.copied) s.popped.length
    s.copied.length
  producer : s.ProducerSound exponent
  consumer : s.ConsumerSound

/-- What is pushed has been copied. -/
theorem pushed_prefix_copied (s : SpscRun w α) : s.pushed <+: s.copied := by
  unfold copied
  split
  · exact List.prefix_append _ _
  · exact List.prefix_rfl

/-! ### What a step does -/

/-- What a step of the producer does, with what it has found. -/
inductive Produces (exponent : ℕ) (s : SpscRun w α) : SpscRun w α → Prop
  | refused {item : α} {h : BitVec w} (hpc : s.producer = .loadTail .tryPush item h)
      (hfull : SpscQueue.isFull exponent h s.queue.tail) :
      Produces exponent s { s with producer := .idle true }
  | spun {item : α} {h : BitVec w} (hpc : s.producer = .loadTail .push item h) :
      Produces exponent s s
  | admitted {call : PushCall} {item : α} {h : BitVec w}
      (hpc : s.producer = .loadTail call item h)
      (hroom : ¬ SpscQueue.isFull exponent h s.queue.tail) :
      Produces exponent s { s with producer := .copyIn item h }
  | copiedIn {item : α} {h : BitVec w} (hpc : s.producer = .copyIn item h) :
      Produces exponent s
        { s with queue := s.queue.copyIn exponent h item, producer := .storeHead item h }
  | stored {item : α} {h : BitVec w} (hpc : s.producer = .storeHead item h) :
      Produces exponent s
        { s with
          queue := { s.queue with head := h + 1 }
          producer := .idle false
          pushed := s.pushed ++ [item] }

/-- What a step of the consumer does, with what it has found. -/
inductive Consumes (exponent : ℕ) (s : SpscRun w α) : SpscRun w α → Prop
  | refused {t : BitVec w} (hpc : s.consumer = .loadHead t)
      (hempty : SpscQueue.isEmpty s.queue.head t) :
      Consumes exponent s { s with consumer := .idle true }
  | admitted {t : BitVec w} (hpc : s.consumer = .loadHead t)
      (hnonempty : ¬ SpscQueue.isEmpty s.queue.head t) :
      Consumes exponent s { s with consumer := .copyOut t }
  | copiedOut {t : BitVec w} (hpc : s.consumer = .copyOut t) :
      Consumes exponent s { s with consumer := .storeTail t (s.queue.copyOut exponent t) }
  | stored {t : BitVec w} {item : α} (hpc : s.consumer = .storeTail t item) :
      Consumes exponent s
        { s with
          queue := { s.queue with tail := t + 1 }
          consumer := .idle false
          popped := s.popped ++ [item] }

theorem produces_of_step (hstep : s.produce exponent = some s') : Produces exponent s s' := by
  unfold SpscRun.produce at hstep
  cases hpc : s.producer with
  | idle refused =>
    rw [hpc] at hstep
    contradiction
  | loadTail call item h =>
    rw [hpc] at hstep
    dsimp only at hstep
    split at hstep
    · rename_i hfull
      cases call with
      | tryPush => exact Option.some.inj hstep ▸ .refused hpc hfull
      | push => exact Option.some.inj hstep ▸ .spun hpc
    · rename_i hroom
      exact Option.some.inj hstep ▸ .admitted hpc hroom
  | copyIn item h =>
    rw [hpc] at hstep
    exact Option.some.inj hstep ▸ .copiedIn hpc
  | storeHead item h =>
    rw [hpc] at hstep
    exact Option.some.inj hstep ▸ .stored hpc

theorem consumes_of_step (hstep : s.consume exponent = some s') : Consumes exponent s s' := by
  unfold SpscRun.consume at hstep
  cases hpc : s.consumer with
  | idle refused =>
    rw [hpc] at hstep
    contradiction
  | loadHead t =>
    rw [hpc] at hstep
    dsimp only at hstep
    split at hstep
    · rename_i hempty
      exact Option.some.inj hstep ▸ .refused hpc hempty
    · rename_i hnonempty
      exact Option.some.inj hstep ▸ .admitted hpc hnonempty
  | copyOut t =>
    rw [hpc] at hstep
    exact Option.some.inj hstep ▸ .copiedOut hpc
  | storeTail t item =>
    rw [hpc] at hstep
    exact Option.some.inj hstep ▸ .stored hpc

/-! ### What one side keeps for the other -/

/-- The producer's knowledge survives a step of the consumer, which only makes room. -/
theorem ProducerSound.mono (h : s.ProducerSound exponent) (hproducer : s'.producer = s.producer)
    (hhead : s'.queue.head = s.queue.head) (hpushed : s'.pushed = s.pushed)
    (hpopped : s.popped.length ≤ s'.popped.length) : s'.ProducerSound exponent := by
  unfold ProducerSound at h ⊢
  rw [hproducer, hhead, hpushed]
  cases hpc : s.producer with
  | idle refused => trivial
  | loadTail call item h' =>
    rw [hpc] at h
    exact h
  | copyIn item h' | storeHead item h' =>
    rw [hpc] at h
    exact ⟨h.1, h.2.trans_le (Nat.add_le_add_right hpopped _)⟩

/-- The consumer's knowledge survives a step of the producer, which only adds items. -/
theorem ConsumerSound.mono (h : s.ConsumerSound) (hconsumer : s'.consumer = s.consumer)
    (htail : s'.queue.tail = s.queue.tail) (hpopped : s'.popped = s.popped)
    (hpushed : s.pushed <+: s'.pushed) : s'.ConsumerSound := by
  unfold ConsumerSound at h ⊢
  rw [hconsumer, htail, hpopped]
  cases hpc : s.consumer with
  | idle refused => trivial
  | loadHead t =>
    rw [hpc] at h
    exact h
  | copyOut t =>
    rw [hpc] at h
    exact ⟨h.1, h.2.trans_le hpushed.length_le⟩
  | storeTail t item =>
    rw [hpc] at h
    obtain ⟨more, hmore⟩ := hpushed
    obtain ⟨hlt, -⟩ := List.getElem?_eq_some_iff.mp h.2
    rw [← hmore, List.getElem?_append_left hlt]
    exact h

/-! ### The invariant -/

section Invariant

variable [Inhabited α]

theorem itemAt_append {items more : List α} {i : ℕ} (h : i < items.length) :
    itemAt (items ++ more) i = itemAt items i := List.getD_append _ _ _ _ h

theorem start_inv (exponent : ℕ) : Inv exponent (start : SpscRun w α) where
  head_eq := BitVec.toNat_zero
  tail_eq := BitVec.toNat_zero
  popped := List.prefix_rfl
  pushed_le := Nat.zero_le _
  window := RingWindow.holds_of_le le_rfl
  producer := trivial
  consumer := trivial

/-- The queue holds the items that are pushed and not popped. -/
theorem Inv.holds (h : Inv exponent s) :
    s.queue.Holds exponent (itemAt s.pushed) s.popped.length s.pushed.length where
  head_eq := h.head_eq
  tail_eq := h.tail_eq
  popped_le := h.popped.length_le
  pushed_le := h.pushed_le
  window := by
    obtain ⟨more, hmore⟩ := s.pushed_prefix_copied
    have hwindow := h.window.mono le_rfl s.pushed_prefix_copied.length_le
    rw [← hmore] at hwindow
    exact hwindow.congr fun i hi => (itemAt_append hi).symm

/-- Only what the producer is about to do changes, and no item is copied. -/
theorem Inv.setProducer (h : Inv exponent s) {pc : PushPc w α}
    (hcopied : copied { s with producer := pc } = s.copied)
    (hsound : ProducerSound exponent { s with producer := pc }) :
    Inv exponent { s with producer := pc } where
  head_eq := h.head_eq
  tail_eq := h.tail_eq
  popped := h.popped
  pushed_le := h.pushed_le
  window := by
    rw [hcopied]
    exact h.window
  producer := hsound
  consumer := h.consumer

/-- Only what the consumer is about to do changes. -/
theorem Inv.setConsumer (h : Inv exponent s) {pc : PopPc w α}
    (hsound : ConsumerSound { s with consumer := pc }) :
    Inv exponent { s with consumer := pc } where
  head_eq := h.head_eq
  tail_eq := h.tail_eq
  popped := h.popped
  pushed_le := h.pushed_le
  window := h.window
  producer := h.producer
  consumer := hsound

theorem Inv.callPush (h : Inv exponent s) {call : PushCall} {item : α}
    (hstep : s.callPush call item = some s') : Inv exponent s' := by
  unfold SpscRun.callPush at hstep
  split at hstep
  · rename_i hpc
    obtain rfl := Option.some.inj hstep
    refine h.setProducer ?_ rfl
    simp only [copied, hpc]
  · contradiction

theorem Inv.callPop (h : Inv exponent s) (hstep : s.callPop = some s') : Inv exponent s' := by
  unfold SpscRun.callPop at hstep
  split at hstep
  · obtain rfl := Option.some.inj hstep
    exact h.setConsumer rfl
  · contradiction

/-- A step of the producer keeps the invariant, as long as the write position does not wrap. -/
theorem Inv.produce (h : Inv exponent s) (hcapacity : exponent < w)
    (hstep : s.produce exponent = some s') (hbound : s'.pushed.length < 2 ^ w) :
    Inv exponent s' := by
  have hsound := h.producer
  have hwindow := h.window
  unfold ProducerSound at hsound
  unfold copied at hwindow
  cases produces_of_step hstep with
  | refused hpc _ =>
    refine h.setProducer ?_ trivial
    simp only [copied, hpc]
  | spun _ => exact h
  | admitted hpc hroom =>
    rw [hpc] at hsound
    obtain rfl := hsound
    refine h.setProducer ?_ ⟨rfl, ?_⟩
    · simp only [copied, hpc]
    · exact Nat.lt_of_not_le fun hle => hroom ((h.holds.isFull_iff hcapacity).mpr hle)
  | @copiedIn item _ hpc =>
    rw [hpc] at hsound hwindow
    obtain ⟨rfl, hroom⟩ := hsound
    refine ⟨h.head_eq, h.tail_eq, h.popped, h.pushed_le, ?_, ⟨rfl, hroom⟩, h.consumer⟩
    have hnew : itemAt (s.pushed ++ [item]) s.pushed.length = item := by
      rw [itemAt, List.getD_append_right _ _ _ _ le_rfl, Nat.sub_self]
      rfl
    have hold : RingWindow.Holds (2 ^ exponent) s.queue.slots (itemAt (s.pushed ++ [item]))
        s.popped.length s.pushed.length := hwindow.congr fun i hi => itemAt_append hi
    have hwritten := hold.write hroom
    rw [hnew, ← h.head_eq, ← SpscQueue.slotOf_eq hcapacity, h.head_eq] at hwritten
    rw [copied, List.length_append]
    exact hwritten
  | stored hpc =>
    rw [hpc] at hsound hwindow
    obtain ⟨rfl, hroom⟩ := hsound
    rw [List.length_append] at hbound
    refine ⟨?_, h.tail_eq, h.popped.trans (List.prefix_append _ _), ?_, hwindow, trivial, ?_⟩
    · have hsucc := SpscQueue.toNat_succ (Nat.zero_lt_of_lt hcapacity) (h.head_eq.symm ▸ hbound)
      rw [hsucc, h.head_eq, List.length_append]
      rfl
    · rw [List.length_append]
      exact hroom
    · exact h.consumer.mono rfl rfl rfl (List.prefix_append _ _)

/-- A step of the consumer keeps the invariant. -/
theorem Inv.consume (h : Inv exponent s) (hcapacity : exponent < w)
    (hstep : s.consume exponent = some s') : Inv exponent s' := by
  have hsound := h.consumer
  unfold ConsumerSound at hsound
  cases consumes_of_step hstep with
  | refused _ _ => exact h.setConsumer trivial
  | admitted hpc hnonempty =>
    rw [hpc] at hsound
    obtain rfl := hsound
    refine h.setConsumer ⟨rfl, ?_⟩
    exact h.popped.length_le.lt_of_ne fun heq => hnonempty (h.holds.isEmpty_iff.mpr heq)
  | copiedOut hpc =>
    rw [hpc] at hsound
    obtain ⟨rfl, hlt⟩ := hsound
    refine h.setConsumer ⟨rfl, ?_⟩
    have hslot := h.holds.window s.popped.length le_rfl hlt
    rw [SpscQueue.copyOut, SpscQueue.slotOf_eq hcapacity, h.tail_eq, hslot, itemAt,
      List.getD_eq_getElem _ _ hlt]
    exact List.getElem?_eq_getElem hlt
  | @stored _ item hpc =>
    rw [hpc] at hsound
    obtain ⟨rfl, hitem⟩ := hsound
    obtain ⟨hlt, -⟩ := List.getElem?_eq_some_iff.mp hitem
    have hpopped : s.popped ++ [item] = s.pushed.take (s.popped.length + 1) := by
      rw [List.take_add_one, hitem, ← List.prefix_iff_eq_take.mp h.popped]
      rfl
    have hlength : (s.popped ++ [item]).length = s.popped.length + 1 := List.length_append
    refine ⟨h.head_eq, ?_, ?_, ?_, ?_, ?_, trivial⟩
    · have hhead := s.queue.head.isLt
      rw [h.head_eq] at hhead
      have hbound : s.queue.tail.toNat + 1 < 2 ^ w := by
        rw [h.tail_eq]
        omega
      rw [SpscQueue.toNat_succ (Nat.zero_lt_of_lt hcapacity) hbound, h.tail_eq, hlength]
    · rw [hpopped]
      exact List.take_prefix _ _
    · rw [hlength]
      exact h.pushed_le.trans (by omega)
    · rw [hlength]
      exact h.window.mono (Nat.le_succ _) le_rfl
    · exact h.producer.mono rfl rfl rfl (hlength.symm ▸ Nat.le_succ _)

/-- The copies of the two sides are in different slots. -/
theorem Inv.slot_ne (h : Inv exponent s) (hcapacity : exponent < w) {item : α} {head tail : BitVec w}
    (hproducer : s.producer = .copyIn item head) (hconsumer : s.consumer = .copyOut tail) :
    SpscQueue.slotOf exponent head ≠ SpscQueue.slotOf exponent tail := by
  have hin := h.producer
  have hout := h.consumer
  rw [ProducerSound, hproducer] at hin
  rw [ConsumerSound, hconsumer] at hout
  obtain ⟨rfl, hroom⟩ := hin
  obtain ⟨rfl, hlt⟩ := hout
  rw [SpscQueue.slotOf_eq hcapacity, SpscQueue.slotOf_eq hcapacity, h.head_eq, h.tail_eq]
  exact (RingWindow.slot_ne hlt hroom).symm

/-- A pop is refused by its load of `head_`, and only when there is nothing to pop. -/
theorem Inv.pop_refused (h : Inv exponent s) (hstep : s.consume exponent = some s')
    (hrefused : s'.consumer = .idle true) : s.Empty := by
  have hsound := h.consumer
  unfold ConsumerSound at hsound
  cases consumes_of_step hstep with
  | refused hpc hempty =>
    rw [hpc] at hsound
    obtain rfl := hsound
    have hlength := h.holds.isEmpty_iff.mp hempty
    refine ⟨BitVec.eq_of_toNat_eq ?_, h.popped.eq_of_length hlength⟩
    rw [h.tail_eq, h.head_eq, hlength]
  | admitted _ _ => contradiction
  | copiedOut _ => contradiction
  | stored _ => exact absurd (PopPc.idle.inj hrefused) Bool.false_ne_true

/-- A push is refused by its load of `tail_`, and only when there is no room. -/
theorem Inv.push_refused (h : Inv exponent s) (hcapacity : exponent < w)
    (hstep : s.produce exponent = some s') (hrefused : s'.producer = .idle true) :
    s.Full exponent := by
  have hsound := h.producer
  unfold ProducerSound at hsound
  cases produces_of_step hstep with
  | refused hpc hfull =>
    rw [hpc] at hsound
    obtain rfl := hsound
    have hle := (h.holds.isFull_iff hcapacity).mp hfull
    have hlength := Nat.le_antisymm h.pushed_le hle
    refine ⟨?_, hlength⟩
    rw [h.head_eq, h.tail_eq, hlength]
  | spun hpc =>
    rw [hpc] at hrefused
    contradiction
  | admitted _ _ => contradiction
  | copiedIn _ => contradiction
  | stored _ => exact absurd (PushPc.idle.inj hrefused) Bool.false_ne_true

theorem Inv.fifo (h : Inv exponent s) (hcapacity : exponent < w) : Fifo exponent s where
  popped := h.popped
  tail_le := by
    rw [h.tail_eq, h.head_eq]
    exact h.popped.length_le
  head_le := by
    rw [h.tail_eq, h.head_eq]
    exact h.pushed_le
  slot_ne := fun _ _ _ => h.slot_ne hcapacity
  pop_refused := fun _ hstep hrefused => h.pop_refused hstep hrefused
  push_refused := fun _ hstep hrefused => h.push_refused hcapacity hstep hrefused

end Invariant

/-! ### Runs -/

/-- No step takes a pushed item back. -/
theorem pushed_prefix_of_step {a : SpscAction α} (h : s.step exponent a = some s') :
    s.pushed <+: s'.pushed := by
  cases a with
  | callPush call item =>
    rw [step, callPush] at h
    split at h
    · exact Option.some.inj h ▸ List.prefix_rfl
    · contradiction
  | produce =>
    cases produces_of_step h with
    | refused | spun | admitted | copiedIn => exact List.prefix_rfl
    | stored => exact List.prefix_append _ _
  | callPop =>
    rw [step, callPop] at h
    split at h
    · exact Option.some.inj h ▸ List.prefix_rfl
    · contradiction
  | consume =>
    cases consumes_of_step h with
    | refused | admitted | copiedOut | stored => exact List.prefix_rfl

variable [Inhabited α]

/-- The invariant holds until the write position wraps. -/
def Sound (exponent : ℕ) (s : SpscRun w α) : Prop := s.pushed.length < 2 ^ w → Inv exponent s

theorem Sound.step (h : Sound exponent s) (hcapacity : exponent < w) {a : SpscAction α}
    (hstep : s.step exponent a = some s') : Sound exponent s' := by
  intro hbound
  have hinv := h ((pushed_prefix_of_step hstep).length_le.trans_lt hbound)
  cases a with
  | callPush call item => exact hinv.callPush hstep
  | produce => exact hinv.produce hcapacity hstep hbound
  | callPop => exact hinv.callPop hstep
  | consume => exact hinv.consume hcapacity hstep

/-- In every interleaving of one producer and one consumer in which the write position does not
wrap, the queue is first in, first out. -/
theorem queue_fifo (hcapacity : exponent < 64) {s : SpscRun 64 α} {actions : List (SpscAction α)}
    (hrun : run (SpscRun.step exponent) start actions = some s)
    (hpushed : s.pushed.length < 2 ^ 64) : Fifo exponent s := by
  have hsound : Sound exponent s :=
    run_invariant (fun _ _ _ ih hstep => ih.step hcapacity hstep) (fun _ => start_inv exponent) hrun
  exact (hsound hpushed).fifo hcapacity

/-- In a queue of two slots, a pop that was called before the first push is complete finds its
item, and copies it out while the second push copies in. -/
def overlapping : List (SpscAction ℕ) :=
  [.callPush .push 7, .callPop, .produce, .produce, .produce, .callPush .tryPush 8, .consume,
    .produce]

theorem overlapping_fifo :
    ∃ s : SpscRun 64 ℕ, run (SpscRun.step 1) start overlapping = some s ∧
      s.producer = .copyIn 8 1 ∧ s.consumer = .copyOut 0 ∧ Fifo 1 s := by
  refine ⟨_, rfl, rfl, rfl, queue_fifo ?_ (rfl : run _ start overlapping = some _) ?_⟩
  · decide
  · decide

end SpscRun

end NanoRing
