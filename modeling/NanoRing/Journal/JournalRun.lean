import NanoRing.Journal.BroadcastJournal

/-!
# One producer and the consumers of a journal

One producer that calls `try_publish` with consecutive sequence numbers, and any number of
consumers that read them in order and report their progress. Every load, compare-exchange
and store of a shared index is a step of its own, and a weak compare-exchange may fail without
reason.
-/

namespace NanoRing

/-- Where the producer is in `try_publish`. -/
inductive TryPublishPc
  | start
  | loaded (minSeq : ℕ)
  | copied
deriving DecidableEq

/-- Where a consumer is: between calls, or in the loop of `report_consumer_progress`. -/
inductive ConsumerPc
  | reading
  | reporting (currentMin : ℕ)
deriving DecidableEq

/-- A consumer with the number of sequences it has read, and the items that it read. -/
structure JournalConsumer (α : Type) where
  pc : ConsumerPc
  localSeq : ℕ
  seen : List α

/-- The state of the producer, the consumers and the journal. -/
structure JournalRun (α : Type) where
  journal : BroadcastJournal α
  producer : TryPublishPc
  sequence : ℕ
  consumers : ℕ → JournalConsumer α

/-- The next step of the producer, or of one consumer. -/
inductive JournalAction
  | produce
  | read (c : ℕ)
  | beginReport (c : ℕ)
  | compareExchange (c : ℕ) (spurious : Bool)
  | endReport (c : ℕ)
deriving DecidableEq

namespace JournalRun

variable {α : Type}

def start [Inhabited α] : JournalRun α where
  journal := .empty
  producer := .start
  sequence := 0
  consumers := fun _ => ⟨.reading, 0, []⟩

/-- The state with one consumer replaced. -/
def setConsumer (s : JournalRun α) (c : ℕ) (consumer : JournalConsumer α) : JournalRun α :=
  { s with consumers := Function.update s.consumers c consumer }

/-- The state with one consumer at another place. -/
def setPc (s : JournalRun α) (c : ℕ) (pc : ConsumerPc) : JournalRun α :=
  s.setConsumer c { s.consumers c with pc := pc }

/-- One step of `try_publish(sequence, items sequence)`; a refused number is tried again. -/
def produce (exponent : ℕ) (items : ℕ → α) (s : JournalRun α) : JournalRun α :=
  match s.producer with
  | .start => { s with producer := .loaded s.journal.minConsumerSeq }
  | .loaded minSeq =>
    if BroadcastJournal.wouldLap exponent s.sequence minSeq then { s with producer := .start }
    else
      { s with
        journal := s.journal.copyItem exponent s.sequence (items s.sequence)
        producer := .copied }
  | .copied =>
    { s with
      journal := s.journal.storePublished s.sequence
      producer := .start
      sequence := s.sequence + 1 }

/-- Read the payload of the next sequence number, once it is published. -/
def read (exponent : ℕ) (s : JournalRun α) (c : ℕ) : Option (JournalRun α) :=
  let consumer := s.consumers c
  match consumer.pc with
  | .reading =>
    if consumer.localSeq < s.journal.getPublishedIndex then
      some (s.setConsumer c { consumer with
        localSeq := consumer.localSeq + 1
        seen := consumer.seen ++ [s.journal.getPayload exponent consumer.localSeq] })
    else none
  | .reporting _ => none

/-- Call `report_consumer_progress` and load the current minimum. -/
def beginReport (s : JournalRun α) (c : ℕ) : Option (JournalRun α) :=
  match (s.consumers c).pc with
  | .reading => some (s.setPc c (.reporting s.journal.minConsumerSeq))
  | .reporting _ => none

/-- A weak compare-exchange; a failed one loads the current minimum again. -/
def compareExchange (s : JournalRun α) (c : ℕ) (spurious : Bool) : Option (JournalRun α) :=
  let consumerSeq := (s.consumers c).localSeq
  match (s.consumers c).pc with
  | .reporting currentMin =>
    if consumerSeq > currentMin then
      if s.journal.minConsumerSeq = currentMin ∧ spurious = false then
        some { s.setPc c .reading with
          journal := { s.journal with minConsumerSeq := consumerSeq } }
      else some (s.setPc c (.reporting s.journal.minConsumerSeq))
    else none
  | .reading => none

/-- Leave the loop of `report_consumer_progress` when its condition fails. -/
def endReport (s : JournalRun α) (c : ℕ) : Option (JournalRun α) :=
  match (s.consumers c).pc with
  | .reporting currentMin =>
    if (s.consumers c).localSeq > currentMin then none else some (s.setPc c .reading)
  | .reading => none

/-- One step of a journal of `2 ^ exponent` slots with consumers below `numConsumers`. -/
def step (exponent numConsumers : ℕ) (items : ℕ → α) (s : JournalRun α) :
    JournalAction → Option (JournalRun α)
  | .produce => some (s.produce exponent items)
  | .read c => if c < numConsumers then s.read exponent c else none
  | .beginReport c => if c < numConsumers then s.beginReport c else none
  | .compareExchange c spurious => if c < numConsumers then s.compareExchange c spurious else none
  | .endReport c => if c < numConsumers then s.endReport c else none

/-- Backpressure holds: the minimum is not ahead of any consumer, a copied item replaces one
that every consumer has read, what a consumer has not read yet is still in its slot, and
what it has read are the items in order. -/
structure Safe (exponent numConsumers : ℕ) (items : ℕ → α) (s : JournalRun α) : Prop where
  min_le : ∀ c < numConsumers, s.journal.minConsumerSeq ≤ (s.consumers c).localSeq
  overwritten : s.producer = .copied →
    ∀ c < numConsumers, s.sequence < (s.consumers c).localSeq + 2 ^ exponent
  unread : ∀ c < numConsumers, s.journal.Window exponent items (s.consumers c).localSeq
    s.journal.publishedIndex
  seen : ∀ c < numConsumers,
    (s.consumers c).seen = (List.range (s.consumers c).localSeq).map items

/-- The compare-exchange of a consumer takes effect. -/
def Exchanges (s : JournalRun α) (c : ℕ) : Prop :=
  match (s.consumers c).pc with
  | .reporting currentMin =>
    (s.consumers c).localSeq > currentMin ∧ s.journal.minConsumerSeq = currentMin
  | .reading => False

instance (s : JournalRun α) (c : ℕ) : Decidable (s.Exchanges c) :=
  match hpc : (s.consumers c).pc with
  | .reporting currentMin =>
    decidable_of_iff ((s.consumers c).localSeq > currentMin ∧ s.journal.minConsumerSeq = currentMin)
      (by rw [Exchanges, hpc])
  | .reading => isFalse fun h => by rwa [Exchanges, hpc] at h

/-- A report takes effect only when no other consumer has read less. -/
def SlowestReports (numConsumers : ℕ) (s : JournalRun α) (a : JournalAction) : Prop :=
  ∀ c < numConsumers, a = .compareExchange c false → s.Exchanges c →
    ∀ c' < numConsumers, (s.consumers c).localSeq ≤ (s.consumers c').localSeq

instance (numConsumers : ℕ) (s : JournalRun α) (a : JournalAction) :
    Decidable (SlowestReports numConsumers s a) :=
  inferInstanceAs (Decidable (∀ c < numConsumers, a = .compareExchange c false → s.Exchanges c →
    ∀ c' < numConsumers, (s.consumers c).localSeq ≤ (s.consumers c').localSeq))

end JournalRun

end NanoRing
