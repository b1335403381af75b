import NanoRing.Common.Schedule
import NanoRing.Journal.BroadcastJournal
import NanoRing.Pipeline.Shards

/-!
# The broadcast pipeline

`Pipeline::run`: one producer publishes every order to the journal and then sets
`producer_done`; every book thread reads every sequence number and applies the orders of its
shard. A publish and a read of a payload are one step each, and so is every load of the
published index and of the flag. The latency samples are left out.
-/

namespace NanoRing

/-- `OrderJournal` has `2 ^ 17` slots. -/
def journalExponent : ℕ := 17

/-- Where a book thread is in its loop. -/
inductive BookThreadPc
  | loadPublished
  | testDone
  | reloadPublished
  | draining (published : ℕ)
  | report
  | exited
deriving DecidableEq

/-- A book thread with its shard manager, and the payloads that it has read. -/
structure BookThread where
  pc : BookThreadPc
  localSeq : ℕ
  localCount : ℕ
  manager : ShardedBookManager
  seen : List DecodedOrder

structure BroadcastRun where
  journal : BroadcastJournal DecodedOrder
  nextOrder : ℕ
  producerDone : Bool
  threads : ℕ → BookThread
  threadMessageCounts : ℕ → ℕ

inductive BroadcastAction
  | publish
  | setDone
  | thread (t : ℕ)
deriving DecidableEq

namespace BroadcastRun

def start : BroadcastRun where
  journal := .empty
  nextOrder := 0
  producerDone := false
  threads := fun _ => ⟨.loadPublished, 0, 0, .empty, []⟩
  threadMessageCounts := fun _ => 0

/-- The state with one book thread replaced. -/
def setThread (s : BroadcastRun) (t : ℕ) (thread : BookThread) : BroadcastRun :=
  { s with threads := Function.update s.threads t thread }

/-- `journal.publish(i, orders[i])`. -/
def publish (orders : List DecodedOrder) (s : BroadcastRun) : Option BroadcastRun :=
  match orders[s.nextOrder]? with
  | some order =>
    some { s with
      journal := s.journal.publish journalExponent s.nextOrder order
      nextOrder := s.nextOrder + 1 }
  | none => none

/-- `producer_done.store(true)`, after the loop over the orders. -/
def setDone (orders : List DecodedOrder) (s : BroadcastRun) : Option BroadcastRun :=
  if s.nextOrder = orders.length ∧ s.producerDone = false then
    some { s with producerDone := true }
  else none

/-- Read the next payload, and apply it if the thread's shard owns it. -/
def drain (numThreads : ℕ) (s : BroadcastRun) (t : ℕ) : BookThread :=
  let thread := s.threads t
  let order := s.journal.getPayload journalExponent thread.localSeq
  let thread := { thread with localSeq := thread.localSeq + 1, seen := thread.seen ++ [order] }
  if getShard numThreads order.tickerKey = t then
    { thread with manager := thread.manager.apply order, localCount := thread.localCount + 1 }
  else thread

/-- The next step of book thread `t`. -/
def threadStep (numThreads : ℕ) (s : BroadcastRun) (t : ℕ) : Option BroadcastRun :=
  let thread := s.threads t
  match thread.pc with
  | .loadPublished =>
    let published := s.journal.getPublishedIndex
    if thread.localSeq ≥ published then some (s.setThread t { thread with pc := .testDone })
    else some (s.setThread t { thread with pc := .draining published })
  | .testDone =>
    if s.producerDone then some (s.setThread t { thread with pc := .reloadPublished })
    else some (s.setThread t { thread with pc := .loadPublished })
  | .reloadPublished =>
    if thread.localSeq ≥ s.journal.getPublishedIndex then
      some { s.setThread t { thread with pc := .exited } with
        threadMessageCounts := Function.update s.threadMessageCounts t thread.localCount }
    else some (s.setThread t { thread with pc := .loadPublished })
  | .draining published =>
    if thread.localSeq < published then some (s.setThread t (s.drain numThreads t))
    else some (s.setThread t { thread with pc := .report })
  | .report =>
    some { s.setThread t { thread with pc := .loadPublished } with
      journal := s.journal.reportConsumerProgress thread.localSeq }
  | .exited => none

/-- The sequence number that a book thread reads in its next step, if that step reads one. -/
def visit (s : BroadcastRun) (t : ℕ) : Option ℕ :=
  match (s.threads t).pc with
  | .draining published =>
    if (s.threads t).localSeq < published then some (s.threads t).localSeq else none
  | _ => none

/-- The sequence numbers that book thread `t` reads in a step. -/
def visitIn (t : ℕ) (s : BroadcastRun) (a : BroadcastAction) : List ℕ :=
  if a = .thread t then (s.visit t).toList else []

/-- One step of the pipeline with book threads below `numThreads`. -/
def step (orders : List DecodedOrder) (numThreads : ℕ) (s : BroadcastRun) :
    BroadcastAction → Option BroadcastRun
  | .publish => s.publish orders
  | .setDone => s.setDone orders
  | .thread t => if t < numThreads then s.threadStep numThreads t else none

/-- Every thread has read the orders in order; once all threads have left their loops, each
manager has applied its shard, and the counts add up to all orders. -/
structure Delivers (orders : List DecodedOrder) (numThreads : ℕ) (s : BroadcastRun) : Prop where
  seen : ∀ t < numThreads, (s.threads t).seen = orders.take (s.threads t).localSeq
  managers : (∀ t < numThreads, (s.threads t).pc = .exited) → ∀ t < numThreads,
    (s.threads t).manager = ShardedBookManager.empty.applyAll (shardOrders numThreads orders t)
  counts : (∀ t < numThreads, (s.threads t).pc = .exited) →
    ∑ t ∈ Finset.range numThreads, s.threadMessageCounts t = orders.length

/-- A publish does not lap a book thread: the number whose slot it takes has been read. -/
def KeepsUp (orders : List DecodedOrder) (numThreads : ℕ) (s : BroadcastRun)
    (a : BroadcastAction) : Prop :=
  a = .publish → s.nextOrder < orders.length →
    ∀ t < numThreads, s.nextOrder < (s.threads t).localSeq + 2 ^ journalExponent

end BroadcastRun

end NanoRing
