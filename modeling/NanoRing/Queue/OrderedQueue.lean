import NanoRing.Common.Publication
import NanoRing.Queue.SpscFifo

/-!
# Accesses of the queue that may be out of date

The queue loads its own index relaxed, loads the index of the other side with acquire and stores its
own with release. So a load of the other side's index may return an old one. Here are the calls of
the queue with these loads and stores, and what one access of a side can do.
-/

namespace NanoRing

open MemoryOrder Schedule

inductive QueueThread
  | producer
  | consumer
deriving DecidableEq

/-- The two indices, and the copies into and out of each slot. -/
inductive QueuePlace
  | head
  | tail
  | copiedIn (slot : ℕ)
  | copiedOut (slot : ℕ)
deriving DecidableEq

/-- The two threads with the last stores of the indices, and what each has seen of them. -/
structure OrderedRun (w : ℕ) (α : Type) where
  threads : SpscRun w α
  memory : Memory QueueThread QueuePlace (BitVec w)

/-- Where a value of an index is stored at a number of positions. -/
abbrev position (w : ℕ) : ℕ → BitVec w := BitVec.ofNat w

namespace OrderedRun

variable {w : ℕ} {α : Type}

def start [Inhabited α] : OrderedRun w α where
  threads := .start
  memory := .start fun _ => 0

/-- Call `try_push` or `push` and load a store `i` of `head_`. -/
def callPush (s : OrderedRun w α) (call : PushCall) (item : α) (i : ℕ) : Option (OrderedRun w α) :=
  match s.threads.producer with
  | .idle _ => (s.memory.loadRelaxed .producer .head i).map fun (h, memory) =>
    ⟨{ s.threads with producer := .loadTail call item h }, memory⟩
  | _ => none

/-- The next step of `try_push` or `push`, which may load a store `i` of `tail_`. -/
def produce (exponent : ℕ) (s : OrderedRun w α) (i : ℕ) : Option (OrderedRun w α) :=
  match s.threads.producer with
  | .idle _ => none
  | .loadTail call item h => (s.memory.loadAcquire .producer .tail i).map fun (t, memory) =>
    if SpscQueue.isFull exponent h t then
      match call with
      | .tryPush => ⟨{ s.threads with producer := .idle true }, memory⟩
      | .push => ⟨s.threads, memory⟩
    else ⟨{ s.threads with producer := .copyIn item h }, memory⟩
  | .copyIn item h =>
    some ⟨{ s.threads with
        queue := s.threads.queue.copyIn exponent h item
        producer := .storeHead item h },
      s.memory.event .producer (.copiedIn (SpscQueue.slotOf exponent h))⟩
  | .storeHead item h =>
    some ⟨{ s.threads with
        queue := { s.threads.queue with head := h + 1 }
        producer := .idle false
        pushed := s.threads.pushed ++ [item] },
      s.memory.storeRelease .producer .head (h + 1)⟩

/-- Call `try_pop` and load a store `i` of `tail_`. -/
def callPop (s : OrderedRun w α) (i : ℕ) : Option (OrderedRun w α) :=
  match s.threads.consumer with
  | .idle _ => (s.memory.loadRelaxed .consumer .tail i).map fun (t, memory) =>
    ⟨{ s.threads with consumer := .loadHead t }, memory⟩
  | _ => none

/-- The next step of `try_pop`, which may load a store `i` of `head_`. -/
def consume (exponent : ℕ) (s : OrderedRun w α) (i : ℕ) : Option (OrderedRun w α) :=
  match s.threads.consumer with
  | .idle _ => none
  | .loadHead t => (s.memory.loadAcquire .consumer .head i).map fun (h, memory) =>
    if SpscQueue.isEmpty h t then ⟨{ s.threads with consumer := .idle true }, memory⟩
    else ⟨{ s.threads with consumer := .copyOut t }, memory⟩
  | .copyOut t =>
    some ⟨{ s.threads with consumer := .storeTail t (s.threads.queue.copyOut exponent t) },
      s.memory.event .consumer (.copiedOut (SpscQueue.slotOf exponent t))⟩
  | .storeTail t item =>
    some ⟨{ s.threads with
        queue := { s.threads.queue with tail := t + 1 }
        consumer := .idle false
        popped := s.threads.popped ++ [item] },
      s.memory.storeRelease .consumer .tail (t + 1)⟩

/-- One step of a queue of `2 ^ exponent` slots, and the store that it loads if it loads one. -/
def step (exponent : ℕ) (s : OrderedRun w α) : SpscAction α × ℕ → Option (OrderedRun w α)
  | (.callPush call item, i) => s.callPush call item i
  | (.produce, i) => s.produce exponent i
  | (.callPop, i) => s.callPop i
  | (.consume, i) => s.consume exponent i

/-- The next copy happens after every copy that is in conflict with it: a copy into a slot after
everything that was done with the slot, a copy out of it after the copies into it. -/
structure InOrder (exponent : ℕ) (s : OrderedRun w α) : Prop where
  copyIn : ∀ item h, s.threads.producer = .copyIn item h →
    s.memory.Knows .producer (.copiedIn (SpscQueue.slotOf exponent h)) ∧
      s.memory.Knows .producer (.copiedOut (SpscQueue.slotOf exponent h))
  copyOut : ∀ t, s.threads.consumer = .copyOut t →
    s.memory.Knows .consumer (.copiedIn (SpscQueue.slotOf exponent t))

/-- The queue is first in, first out, its copies are in order, and a call is refused only if the
thread knows of nothing to pop, or of no room. -/
structure Suffices (exponent : ℕ) (s : OrderedRun w α) : Prop where
  popped : s.threads.popped <+: s.threads.pushed
  pushed_le : s.threads.pushed.length ≤ s.threads.popped.length + 2 ^ exponent
  inOrder : s.InOrder exponent
  pop_refused : ∀ i s', s.step exponent (.consume, i) = some s' → s'.threads.consumer = .idle true →
    s'.memory.seen .consumer .head ≤ s'.threads.popped.length
  push_refused : ∀ i s', s.step exponent (.produce, i) = some s' → s'.threads.producer = .idle true →
    s'.memory.seen .producer .tail + 2 ^ exponent ≤ s'.threads.pushed.length

end OrderedRun

/-! ### Places -/

namespace QueuePlace

theorem copiedIn_ne_head (slot : ℕ) : copiedIn slot ≠ head := by
  intro h
  cases h

theorem copiedIn_ne_tail (slot : ℕ) : copiedIn slot ≠ tail := by
  intro h
  cases h

theorem copiedOut_ne_head (slot : ℕ) : copiedOut slot ≠ head := by
  intro h
  cases h

theorem copiedOut_ne_tail (slot : ℕ) : copiedOut slot ≠ tail := by
  intro h
  cases h

theorem copiedOut_ne_copiedIn (slot slot' : ℕ) : copiedOut slot ≠ copiedIn slot' := by
  intro h
  cases h

end QueuePlace

/-! ### Tests of loaded indices -/

namespace SpscQueue

variable {w exponent : ℕ} {h t : BitVec w}

theorem toNat_position {i : ℕ} (hi : i < 2 ^ w) : (position w i).toNat = i :=
  (BitVec.toNat_ofNat i w).trans (Nat.mod_eq_of_lt hi)

theorem eq_position (h : BitVec w) : h = position w h.toNat := by
  rw [position, BitVec.ofNat_toNat, BitVec.setWidth_eq]

theorem succ_eq_position (h : BitVec w) : h + 1 = position w (h.toNat + 1) := by
  rw [position, BitVec.ofNat_add, ← position, ← eq_position]
  rfl

/-- The producer finds no room when the index that it has loaded is a capacity behind. -/
theorem isFull_iff_toNat (hcapacity : exponent < w) (hle : t ≤ h) :
    isFull exponent h t = true ↔ t.toNat + 2 ^ exponent ≤ h.toNat := by
  have hsub := BitVec.toNat_sub_of_le hle
  have hnat := BitVec.le_def.mp hle
  rw [isFull, decide_eq_true_iff, ge_iff_le, BitVec.le_def, capacity, BitVec.toNat_ofNat,
    Nat.mod_eq_of_lt (Nat.pow_lt_pow_right Nat.one_lt_two hcapacity), hsub]
  omega

/-- The consumer finds nothing when the index that it has loaded is not ahead. -/
theorem isEmpty_iff_toNat : isEmpty h t = true ↔ h.toNat ≤ t.toNat := by
  rw [isEmpty, decide_eq_true_iff, ge_iff_le, BitVec.le_def]

end SpscQueue

namespace SpscRun

variable {w : ℕ} {α : Type} {exponent : ℕ} {s : SpscRun w α}

/-- How many items are copied out. -/
def copiedOut (s : SpscRun w α) : ℕ :=
  match s.consumer with
  | .storeTail _ _ => s.popped.length + 1
  | _ => s.popped.length

/-- What is copied out has been pushed. -/
theorem ConsumerSound.copiedOut_le (h : s.ConsumerSound) (hle : s.popped.length ≤ s.pushed.length) :
    s.copiedOut ≤ s.pushed.length := by
  unfold ConsumerSound at h
  unfold copiedOut
  cases hpc : s.consumer with
  | idle | loadHead | copyOut => exact hle
  | storeTail tail item =>
    rw [hpc] at h
    exact (List.getElem?_eq_some_iff.mp h.2).1

/-- What is copied in is at most a capacity ahead. -/
theorem ProducerSound.copied_le (h : s.ProducerSound exponent)
    (hle : s.pushed.length ≤ s.popped.length + 2 ^ exponent) :
    s.copied.length ≤ s.popped.length + 2 ^ exponent := by
  unfold ProducerSound at h
  unfold copied
  cases hpc : s.producer with
  | idle | loadTail | copyIn => exact hle
  | storeHead item head =>
    rw [hpc] at h
    rw [List.length_append]
    exact h.2

end SpscRun

namespace OrderedRun

variable {w : ℕ} {α : Type} {exponent : ℕ} {s s' : OrderedRun w α} {i : ℕ}

/-! ### What a step does -/

/-- What a step of the producer does, with the index that it has loaded. -/
inductive Produces (exponent : ℕ) (s : OrderedRun w α) (i : ℕ) : OrderedRun w α → Prop
  | refused {item : α} {h t : BitVec w} {memory : Memory QueueThread QueuePlace (BitVec w)}
      (hpc : s.threads.producer = .loadTail .tryPush item h)
      (hload : s.memory.loadAcquire .producer .tail i = some (t, memory))
      (hfull : SpscQueue.isFull exponent h t) :
      Produces exponent s i ⟨{ s.threads with producer := .idle true }, memory⟩
  | spun {item : α} {h t : BitVec w} {memory : Memory QueueThread QueuePlace (BitVec w)}
      (hpc : s.threads.producer = .loadTail .push item h)
      (hload : s.memory.loadAcquire .producer .tail i = some (t, memory)) :
      Produces exponent s i ⟨s.threads, memory⟩
  | admitted {call : PushCall} {item : α} {h t : BitVec w}
      {memory : Memory QueueThread QueuePlace (BitVec w)}
      (hpc : s.threads.producer = .loadTail call item h)
      (hload : s.memory.loadAcquire .producer .tail i = some (t, memory))
      (hroom : ¬ SpscQueue.isFull exponent h t) :
      Produces exponent s i ⟨{ s.threads with producer := .copyIn item h }, memory⟩
  | copiedIn {item : α} {h : BitVec w} (hpc : s.threads.producer = .copyIn item h) :
      Produces exponent s i
        ⟨{ s.threads with
            queue := s.threads.queue.copyIn exponent h item
            producer := .storeHead item h },
          s.memory.event .producer (.copiedIn (SpscQueue.slotOf exponent h))⟩
  | stored {item : α} {h : BitVec w} (hpc : s.threads.producer = .storeHead item h) :
      Produces exponent s i
        ⟨{ s.threads with
            queue := { s.threads.queue with head := h + 1 }
            producer := .idle false
            pushed := s.threads.pushed ++ [item] },
          s.memory.storeRelease .producer .head (h + 1)⟩

/-- What a step of the consumer does, with the index that it has loaded. -/
inductive Consumes (exponent : ℕ) (s : OrderedRun w α) (i : ℕ) : OrderedRun w α → Prop
  | refused {h t : BitVec w} {memory : Memory QueueThread QueuePlace (BitVec w)}
      (hpc : s.threads.consumer = .loadHead t)
      (hload : s.memory.loadAcquire .consumer .head i = some (h, memory))
      (hempty : SpscQueue.isEmpty h t) :
      Consumes exponent s i ⟨{ s.threads with consumer := .idle true }, memory⟩
  | admitted {h t : BitVec w} {memory : Memory QueueThread QueuePlace (BitVec w)}
      (hpc : s.threads.consumer = .loadHead t)
      (hload : s.memory.loadAcquire .consumer .head i = some (h, memory))
      (hnonempty : ¬ SpscQueue.isEmpty h t) :
      Consumes exponent s i ⟨{ s.threads with consumer := .copyOut t }, memory⟩
  | copiedOut {t : BitVec w} (hpc : s.threads.consumer = .copyOut t) :
      Consumes exponent s i
        ⟨{ s.threads with consumer := .storeTail t (s.threads.queue.copyOut exponent t) },
          s.memory.event .consumer (.copiedOut (SpscQueue.slotOf exponent t))⟩
  | stored {t : BitVec w} {item : α} (hpc : s.threads.consumer = .storeTail t item) :
      Consumes exponent s i
        ⟨{ s.threads with
            queue := { s.threads.queue with tail := t + 1 }
            consumer := .idle false
            popped := s.threads.popped ++ [item] },
          s.memory.storeRelease .consumer .tail (t + 1)⟩

theorem produces_of_step (hstep : s.produce exponent i = some s') : Produces exponent s i s' := by
  unfold OrderedRun.produce at hstep
  cases hpc : s.threads.producer with
  | idle refused =>
    rw [hpc] at hstep
    contradiction
  | loadTail call item h =>
    rw [hpc] at hstep
    obtain ⟨⟨t, memory⟩, hload, rfl⟩ := Option.map_eq_some_iff.mp hstep
    dsimp only
    split
    · rename_i hfull
      cases call with
      | tryPush => exact .refused hpc hload hfull
      | push => exact .spun hpc hload
    · rename_i hroom
      exact .admitted hpc hload hroom
  | copyIn item h =>
    rw [hpc] at hstep
    exact Option.some.inj hstep ▸ .copiedIn hpc
  | storeHead item h =>
    rw [hpc] at hstep
    exact Option.some.inj hstep ▸ .stored hpc

theorem consumes_of_step (hstep : s.consume exponent i = some s') : Consumes exponent s i s' := by
  unfold OrderedRun.consume at hstep
  cases hpc : s.threads.consumer with
  | idle refused =>
    rw [hpc] at hstep
    contradiction
  | loadHead t =>
    rw [hpc] at hstep
    obtain ⟨⟨h, memory⟩, hload, rfl⟩ := Option.map_eq_some_iff.mp hstep
    dsimp only
    split
    · rename_i hempty
      exact .refused hpc hload hempty
    · rename_i hnonempty
      exact .admitted hpc hload hnonempty
  | copyOut t =>
    rw [hpc] at hstep
    exact Option.some.inj hstep ▸ .copiedOut hpc
  | storeTail t item =>
    rw [hpc] at hstep
    exact Option.some.inj hstep ▸ .stored hpc

end OrderedRun

end NanoRing
