import NanoRing.Common.Schedule
import NanoRing.Queue.SpscQueue

/-!
# A producer and a consumer of a queue

One producer that calls `try_push` or `push` and one consumer that calls `try_pop`. Every load
of an index, every copy of a slot and every store of an index is a step of its own, and the
test of the loaded index goes with the load. Two lists record the items whose push or pop has
stored its index.
-/

namespace NanoRing

/-- The two calls of the producer; on a full queue one returns false and the other spins. -/
inductive PushCall
  | tryPush
  | push
deriving DecidableEq

/-- Where the producer is: between calls, the last one refused or not, or at its next access. -/
inductive PushPc (w : ℕ) (α : Type)
  | idle (refused : Bool)
  | loadTail (call : PushCall) (item : α) (h : BitVec w)
  | copyIn (item : α) (h : BitVec w)
  | storeHead (item : α) (h : BitVec w)
deriving DecidableEq

/-- Where the consumer is: between calls, the last one refused or not, or at its next access. -/
inductive PopPc (w : ℕ) (α : Type)
  | idle (refused : Bool)
  | loadHead (t : BitVec w)
  | copyOut (t : BitVec w)
  | storeTail (t : BitVec w) (item : α)
deriving DecidableEq

/-- The queue with both of its threads, and the items pushed and popped so far. -/
structure SpscRun (w : ℕ) (α : Type) where
  queue : SpscQueue w α
  producer : PushPc w α
  consumer : PopPc w α
  pushed : List α
  popped : List α

/-- A call, which loads the index of its own side, or the next step of the call. -/
inductive SpscAction (α : Type)
  | callPush (call : PushCall) (item : α)
  | produce
  | callPop
  | consume
deriving DecidableEq

namespace SpscRun

variable {w : ℕ} {α : Type}

def start [Inhabited α] : SpscRun w α where
  queue := .empty
  producer := .idle false
  consumer := .idle false
  pushed := []
  popped := []

/-- Call `try_push` or `push` and load `head_`. -/
def callPush (s : SpscRun w α) (call : PushCall) (item : α) : Option (SpscRun w α) :=
  match s.producer with
  | .idle _ => some { s with producer := .loadTail call item s.queue.head }
  | _ => none

/-- The next step of `try_push` or `push`. -/
def produce (exponent : ℕ) (s : SpscRun w α) : Option (SpscRun w α) :=
  match s.producer with
  | .idle _ => none
  | .loadTail call item h =>
    if SpscQueue.isFull exponent h s.queue.tail then
      match call with
      | .tryPush => some { s with producer := .idle true }
      | .push => some s
    else some { s with producer := .copyIn item h }
  | .copyIn item h =>
    some { s with queue := s.queue.copyIn exponent h item, producer := .storeHead item h }
  | .storeHead item h =>
    some { s with
      queue := { s.queue with head := h + 1 }
      producer := .idle false
      pushed := s.pushed ++ [item] }

/-- Call `try_pop` and load `tail_`. -/
def callPop (s : SpscRun w α) : Option (SpscRun w α) :=
  match s.consumer with
  | .idle _ => some { s with consumer := .loadHead s.queue.tail }
  | _ => none

/-- The next step of `try_pop`. -/
def consume (exponent : ℕ) (s : SpscRun w α) : Option (SpscRun w α) :=
  match s.consumer with
  | .idle _ => none
  | .loadHead t =>
    if SpscQueue.isEmpty s.queue.head t then some { s with consumer := .idle true }
    else some { s with consumer := .copyOut t }
  | .copyOut t => some { s with consumer := .storeTail t (s.queue.copyOut exponent t) }
  | .storeTail t item =>
    some { s with
      queue := { s.queue with tail := t + 1 }
      consumer := .idle false
      popped := s.popped ++ [item] }

/-- One step of a queue of `2 ^ exponent` slots. -/
def step (exponent : ℕ) (s : SpscRun w α) : SpscAction α → Option (SpscRun w α)
  | .callPush call item => s.callPush call item
  | .produce => s.produce exponent
  | .callPop => s.callPop
  | .consume => s.consume exponent

section Uninterrupted

variable {exponent : ℕ} {s : SpscRun w α} {q : SpscQueue w α} {item : α} {refused : Bool}

/-- A push that the consumer does not interrupt is the push of the queue in one step. -/
theorem run_push (hidle : s.producer = .idle refused) (call : PushCall)
    (hpush : s.queue.push exponent item = some q) :
    Schedule.run (step exponent) s [.callPush call item, .produce, .produce, .produce] =
      some { s with queue := q, producer := .idle false, pushed := s.pushed ++ [item] } := by
  unfold SpscQueue.push at hpush
  split at hpush
  · contradiction
  · rename_i hroom
    obtain rfl := Option.some.inj hpush
    simp only [Schedule.run, step, callPush, produce, hidle, Option.bind_some, if_neg hroom]
    rfl

/-- A pop that the producer does not interrupt is the pop of the queue in one step. -/
theorem run_tryPop (hidle : s.consumer = .idle refused)
    (hpop : s.queue.tryPop exponent = some (item, q)) :
    Schedule.run (step exponent) s [.callPop, .consume, .consume, .consume] =
      some { s with queue := q, consumer := .idle false, popped := s.popped ++ [item] } := by
  unfold SpscQueue.tryPop at hpop
  split at hpop
  · contradiction
  · rename_i hnonempty
    obtain ⟨rfl, rfl⟩ := Prod.mk.injEq _ _ _ _ ▸ Option.some.inj hpop
    simp only [Schedule.run, step, callPop, consume, hidle, Option.bind_some, if_neg hnonempty]
    rfl

end Uninterrupted

/-- Every item that was pushed has been popped, and the indices are equal. -/
def Empty (s : SpscRun w α) : Prop := s.queue.tail = s.queue.head ∧ s.popped = s.pushed

/-- A whole capacity has been pushed and not popped, and the indices are that far apart. -/
def Full (exponent : ℕ) (s : SpscRun w α) : Prop :=
  s.queue.head.toNat = s.queue.tail.toNat + 2 ^ exponent ∧
    s.pushed.length = s.popped.length + 2 ^ exponent

/-- The items come out in the order in which they went in, the indices stay within a capacity of
each other, the two copies never meet in a slot, and a call is refused only for a reason. -/
structure Fifo (exponent : ℕ) (s : SpscRun w α) : Prop where
  popped : s.popped <+: s.pushed
  tail_le : s.queue.tail.toNat ≤ s.queue.head.toNat
  head_le : s.queue.head.toNat ≤ s.queue.tail.toNat + 2 ^ exponent
  slot_ne : ∀ item h t, s.producer = .copyIn item h → s.consumer = .copyOut t →
    SpscQueue.slotOf exponent h ≠ SpscQueue.slotOf exponent t
  pop_refused : ∀ s', s.step exponent .consume = some s' → s'.consumer = .idle true → s.Empty
  push_refused : ∀ s', s.step exponent .produce = some s' → s'.producer = .idle true →
    s.Full exponent

end SpscRun

end NanoRing
