import NanoRing.Common.Schedule
import NanoRing.Pipeline.Shards
import NanoRing.Queue.SpscQueue

/-!
# The routed pipeline

`RoutedPipeline::run`: the producer collects the orders of every shard in a batch, pushes a batch
that is full into the queue of the shard, flushes what is left at the end and then sets
`producer_done`. Each book thread pops only from its own queue. A push, a pop and every load
of the flag or of the number of available items are one step each, and so is the apply of a
popped order. The latency samples are left out.
-/

namespace NanoRing

/-- `ShardQueue` has `2 ^ 17` slots. -/
def queueExponent : ℕ := 17

abbrev ShardQueue : Type := SpscQueue 64 DecodedOrder

/-- The number of orders that a batch collects before it is pushed. -/
def BATCH_SIZE : ℕ := 64

/-- An array of orders; its length is a `size_t`. -/
abbrev OrderArray : Type := { orders : List DecodedOrder // orders.length < 2 ^ 64 }

/-- Where the producer is: at order `i`, pushing the batch of a full shard, flushing, or done. -/
inductive RouterPc
  | routing (i : ℕ)
  | pushing (i shard j : ℕ)
  | flushing (s j : ℕ)
  | finished
deriving DecidableEq

/-- Where a book thread is in its loop. -/
inductive RoutedConsumerPc
  | popping
  | applying (order : DecodedOrder)
  | testDone
  | testAvailable
  | exited
deriving DecidableEq

/-- A book thread with its shard manager, and the orders that it has applied. -/
structure RoutedConsumer where
  pc : RoutedConsumerPc
  localCount : ℕ
  manager : ShardedBookManager
  applied : List DecodedOrder

structure RoutedRun where
  router : RouterPc
  batches : ℕ → List DecodedOrder
  queues : ℕ → ShardQueue
  producerDone : Bool
  consumers : ℕ → RoutedConsumer
  threadMessageCounts : ℕ → ℕ

/-- The next step of the producer, or of book thread `t`. -/
inductive RoutedAction
  | route
  | thread (t : ℕ)
deriving DecidableEq

namespace RoutedRun

def start : RoutedRun where
  router := .routing 0
  batches := fun _ => []
  queues := fun _ => .empty
  producerDone := false
  consumers := fun _ => ⟨.popping, 0, .empty, []⟩
  threadMessageCounts := fun _ => 0

/-- The state with one consumer replaced. -/
def setConsumer (s : RoutedRun) (t : ℕ) (consumer : RoutedConsumer) : RoutedRun :=
  { s with consumers := Function.update s.consumers t consumer }

/-- The state with one queue replaced. -/
def setQueue (s : RoutedRun) (t : ℕ) (queue : ShardQueue) : RoutedRun :=
  { s with queues := Function.update s.queues t queue }

/-- The state with one batch replaced. -/
def setBatch (s : RoutedRun) (shard : ℕ) (batch : List DecodedOrder) : RoutedRun :=
  { s with batches := Function.update s.batches shard batch }

/-- Push into the queue of a shard and go on; not enabled while that queue is full. -/
def pushInto (s : RoutedRun) (shard : ℕ) (msg : DecodedOrder) (next : RouterPc) :
    Option RoutedRun :=
  ((s.queues shard).push queueExponent msg).map fun queue =>
    { s.setQueue shard queue with router := next }

/-- The next step of the producer. -/
def routeStep (orders : OrderArray) (numThreads : ℕ) (s : RoutedRun) : Option RoutedRun :=
  match s.router with
  | .routing i =>
    match orders.1[i]? with
    | some order =>
      let shard := getShard numThreads order.tickerKey
      let batch := s.batches shard ++ [order]
      if batch.length ≥ BATCH_SIZE then
        some { s.setBatch shard batch with router := .pushing i shard 0 }
      else some { s.setBatch shard batch with router := .routing (i + 1) }
    | none => some { s with router := .flushing 0 0 }
  | .pushing i shard j =>
    match (s.batches shard)[j]? with
    | some msg => s.pushInto shard msg (.pushing i shard (j + 1))
    | none => some { s.setBatch shard [] with router := .routing (i + 1) }
  | .flushing shard j =>
    if shard < numThreads then
      match (s.batches shard)[j]? with
      | some msg => s.pushInto shard msg (.flushing shard (j + 1))
      | none => some { s with router := .flushing (shard + 1) 0 }
    else some { s with router := .finished, producerDone := true }
  | .finished => none

/-- The next step of book thread `t`. -/
def threadStep (s : RoutedRun) (t : ℕ) : Option RoutedRun :=
  let consumer := s.consumers t
  match consumer.pc with
  | .popping =>
    match (s.queues t).tryPop queueExponent with
    | some (order, queue) =>
      some ((s.setQueue t queue).setConsumer t { consumer with pc := .applying order })
    | none => some (s.setConsumer t { consumer with pc := .testDone })
  | .applying order =>
    some (s.setConsumer t
      { pc := .popping
        localCount := consumer.localCount + 1
        manager := consumer.manager.apply order
        applied := consumer.applied ++ [order] })
  | .testDone =>
    if s.producerDone then some (s.setConsumer t { consumer with pc := .testAvailable })
    else some (s.setConsumer t { consumer with pc := .popping })
  | .testAvailable =>
    if (s.queues t).available == 0 then
      some { s.setConsumer t { consumer with pc := .exited } with
        threadMessageCounts := Function.update s.threadMessageCounts t consumer.localCount }
    else some (s.setConsumer t { consumer with pc := .popping })
  | .exited => none

/-- One step of the pipeline with book threads below `numThreads`. -/
def step (orders : OrderArray) (numThreads : ℕ) (s : RoutedRun) : RoutedAction → Option RoutedRun
  | .route => s.routeStep orders numThreads
  | .thread t => if t < numThreads then s.threadStep t else none

/-- Every thread has applied a beginning of its shard's orders, and all of them when it has left
its loop; once all threads have, each manager has applied its shard, and the counts add up to
all orders. -/
structure Delivers (orders : OrderArray) (numThreads : ℕ) (s : RoutedRun) : Prop where
  applied : ∀ t < numThreads, (s.consumers t).applied <+: shardOrders numThreads orders.1 t
  exited : ∀ t < numThreads, (s.consumers t).pc = .exited →
    (s.consumers t).applied = shardOrders numThreads orders.1 t
  managers : (∀ t < numThreads, (s.consumers t).pc = .exited) → ∀ t < numThreads,
    (s.consumers t).manager =
      ShardedBookManager.empty.applyAll (shardOrders numThreads orders.1 t)
  counts : (∀ t < numThreads, (s.consumers t).pc = .exited) →
    ∑ t ∈ Finset.range numThreads, s.threadMessageCounts t = orders.1.length

end RoutedRun

end NanoRing
