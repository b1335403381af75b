import NanoRing.Common.Publication
import NanoRing.Journal.Backpressure

/-!
# Backpressure under the memory orders of the journal

`try_publish` loads `min_consumer_seq_` with acquire, and a consumer stores its progress there with
release. Neither an old minimum nor an old index does harm: backpressure holds as long as each report
that is stored comes from a slowest consumer, as it does when all loads are of the last stores. A report
tells the producer of the reads of the consumer that makes it. So with one consumer the producer knows
of all reads of the slot that it copies into.
-/

namespace NanoRing

open MemoryOrder Schedule

inductive JournalThread
  | producer
  | consumer (c : ℕ)
deriving DecidableEq

/-- The two indices, the copies into each slot, and the reads of it by each consumer. -/
inductive JournalPlace
  | published
  | minSeq
  | copied (slot : ℕ)
  | read (c slot : ℕ)
deriving DecidableEq

/-- The producer and the consumers, the index that each consumer has loaded, the last stores of the
indices, and what each thread has seen of them. -/
structure OrderedJournalRun (α : Type) where
  threads : JournalRun α
  loaded : ℕ → ℕ
  memory : Memory JournalThread JournalPlace ℕ

/-- The next access of the producer, or of a consumer. A load is of a store `i`. -/
inductive OrderedJournalAction
  | produce (i : ℕ)
  | load (c i : ℕ)
  | read (c : ℕ)
  | beginReport (c i : ℕ)
  | compareExchange (c : ℕ) (spurious : Bool) (i : ℕ)
  | endReport (c : ℕ)
deriving DecidableEq

namespace OrderedJournalRun

variable {α : Type}

def start [Inhabited α] : OrderedJournalRun α where
  threads := .start
  loaded := fun _ => 0
  memory := .start fun _ => 0

/-- The next access of `try_publish`, which may load a store `i` of `min_consumer_seq_`. -/
def produce (exponent : ℕ) (items : ℕ → α) (s : OrderedJournalRun α) (i : ℕ) :
    Option (OrderedJournalRun α) :=
  match s.threads.producer with
  | .start => (s.memory.loadAcquire .producer .minSeq i).map fun (minSeq, memory) =>
    { s with threads := { s.threads with producer := .loaded minSeq }, memory }
  | .loaded minSeq =>
    if BroadcastJournal.wouldLap exponent s.threads.sequence minSeq then
      some { s with threads := { s.threads with producer := .start } }
    else
      some { s with
        threads := { s.threads with
          journal := s.threads.journal.copyItem exponent s.threads.sequence
            (items s.threads.sequence)
          producer := .copied }
        memory := s.memory.event .producer
          (.copied (BroadcastJournal.slotOf exponent s.threads.sequence)) }
  | .copied =>
    some { s with
      threads := { s.threads with
        journal := s.threads.journal.storePublished s.threads.sequence
        producer := .start
        sequence := s.threads.sequence + 1 }
      memory := s.memory.storeRelease .producer .published (s.threads.sequence + 1) }

/-- A load of the published index, which may be of an old store `i`. -/
def load (s : OrderedJournalRun α) (c i : ℕ) : Option (OrderedJournalRun α) :=
  match (s.threads.consumers c).pc with
  | .reading => (s.memory.loadAcquire (.consumer c) .published i).map fun (published, memory) =>
    { s with loaded := Function.update s.loaded c published, memory }
  | .reporting _ => none

/-- Read the payload of the next sequence number, when the index that is loaded is above it. -/
def read (exponent : ℕ) (s : OrderedJournalRun α) (c : ℕ) : Option (OrderedJournalRun α) :=
  let consumer := s.threads.consumers c
  match consumer.pc with
  | .reading =>
    if consumer.localSeq < s.loaded c then
      some { s with
        threads := s.threads.setConsumer c { consumer with
          localSeq := consumer.localSeq + 1
          seen := consumer.seen ++ [s.threads.journal.getPayload exponent consumer.localSeq] }
        memory := s.memory.event (.consumer c)
          (.read c (BroadcastJournal.slotOf exponent consumer.localSeq)) }
    else none
  | .reporting _ => none

/-- A relaxed load of the minimum. -/
def loadMinimum (s : OrderedJournalRun α) (c i : ℕ) : Option (OrderedJournalRun α) :=
  (s.memory.loadRelaxed (.consumer c) .minSeq i).map fun (currentMin, memory) =>
    { s with threads := s.threads.setPc c (.reporting currentMin), memory }

/-- Call `report_consumer_progress` and load the current minimum. -/
def beginReport (s : OrderedJournalRun α) (c i : ℕ) : Option (OrderedJournalRun α) :=
  match (s.threads.consumers c).pc with
  | .reading => s.loadMinimum c i
  | .reporting _ => none

/-- A weak compare-exchange, which acts on the last store when it succeeds, and loads the minimum
again when it fails. -/
def compareExchange (s : OrderedJournalRun α) (c : ℕ) (spurious : Bool) (i : ℕ) :
    Option (OrderedJournalRun α) :=
  let consumerSeq := (s.threads.consumers c).localSeq
  match (s.threads.consumers c).pc with
  | .reporting currentMin =>
    if consumerSeq > currentMin then
      if s.threads.journal.minConsumerSeq = currentMin ∧ spurious = false then
        some { s with
          threads := { s.threads.setPc c .reading with
            journal := { s.threads.journal with minConsumerSeq := consumerSeq } }
          memory := s.memory.storeRelease (.consumer c) .minSeq consumerSeq }
      else s.loadMinimum c i
    else none
  | .reading => none

/-- Leave the loop of `report_consumer_progress` when its condition fails. -/
def endReport (s : OrderedJournalRun α) (c : ℕ) : Option (OrderedJournalRun α) :=
  match (s.threads.consumers c).pc with
  | .reporting currentMin =>
    if (s.threads.consumers c).localSeq > currentMin then none
    else some { s with threads := s.threads.setPc c .reading }
  | .reading => none

/-- One access of a journal of `2 ^ exponent` slots with consumers below `numConsumers`. -/
def step (exponent numConsumers : ℕ) (items : ℕ → α) (s : OrderedJournalRun α) :
    OrderedJournalAction → Option (OrderedJournalRun α)
  | .produce i => s.produce exponent items i
  | .load c i => if c < numConsumers then s.load c i else none
  | .read c => if c < numConsumers then s.read exponent c else none
  | .beginReport c i => if c < numConsumers then s.beginReport c i else none
  | .compareExchange c spurious i =>
    if c < numConsumers then s.compareExchange c spurious i else none
  | .endReport c => if c < numConsumers then s.endReport c else none

/-- Backpressure holds, the next read of a slot happens after all copies into it, and with one
consumer the copy of the next item after all reads of its slot. -/
structure Suffices (exponent numConsumers : ℕ) (items : ℕ → α) (s : OrderedJournalRun α) : Prop where
  safe : s.threads.Safe exponent numConsumers items
  read : ∀ c < numConsumers, (s.threads.consumers c).pc = .reading →
    (s.threads.consumers c).localSeq < s.loaded c → s.memory.Knows (.consumer c)
      (.copied (BroadcastJournal.slotOf exponent (s.threads.consumers c).localSeq))
  copied : numConsumers = 1 → ∀ minSeq, s.threads.producer = .loaded minSeq →
    BroadcastJournal.wouldLap exponent s.threads.sequence minSeq = false →
      s.memory.Knows .producer (.read 0 (BroadcastJournal.slotOf exponent s.threads.sequence))

/-- A report takes effect only when no other consumer has read less. -/
def SlowestReports (numConsumers : ℕ) (s : OrderedJournalRun α) (a : OrderedJournalAction) : Prop :=
  ∀ c i, a = .compareExchange c false i →
    s.threads.SlowestReports numConsumers (.compareExchange c false)

/-- Only a compare-exchange that does not fail on its own is tested. -/
instance (numConsumers : ℕ) (s : OrderedJournalRun α) :
    ∀ a, Decidable (SlowestReports numConsumers s a)
  | .compareExchange c false i =>
    decidable_of_iff (s.threads.SlowestReports numConsumers (.compareExchange c false))
      ⟨fun h c' i' ha => (OrderedJournalAction.compareExchange.inj ha).1 ▸ h, fun h => h c i rfl⟩
  | .compareExchange _ true _ => isTrue fun _ _ ha => by cases ha
  | .produce _ | .load _ _ | .read _ | .beginReport _ _ | .endReport _ =>
    isTrue fun _ _ ha => by cases ha

variable {exponent numConsumers : ℕ} {items : ℕ → α} {s s' : OrderedJournalRun α} {told : ℕ → ℕ}
  {c i : ℕ}

/-! ### The reports of the only consumer -/

/-- The `k`-th report stores `told k` and tells of the reads below it. -/
structure ReportsTell (exponent : ℕ) (told : ℕ → ℕ) (s : OrderedJournalRun α) : Prop where
  monotone : Monotone told
  counts : Counts s.memory (.consumer 0) .minSeq told (s.memory.now .minSeq)
  tracks : Tracks s.memory (.consumer 0) .minSeq (.read 0) (fun j => j % 2 ^ exponent) told
    (s.threads.consumers 0).localSeq
  last : told (s.memory.now .minSeq) = s.threads.journal.minConsumerSeq
  loaded : ∀ minSeq, s.threads.producer = .loaded minSeq →
    minSeq ≤ told (s.memory.seen .producer .minSeq)

theorem ReportsTell.move (h : ReportsTell exponent told s) {a : OrderedJournalRun α}
    (hnow : a.memory.now .minSeq = s.memory.now .minSeq)
    (hcounts : Counts a.memory (.consumer 0) .minSeq told (s.memory.now .minSeq))
    (htracks : Tracks a.memory (.consumer 0) .minSeq (.read 0) (fun j => j % 2 ^ exponent) told
      (a.threads.consumers 0).localSeq)
    (hmin : a.threads.journal.minConsumerSeq = s.threads.journal.minConsumerSeq)
    (hseen : s.memory.seen .producer .minSeq ≤ a.memory.seen .producer .minSeq)
    (hproducer : ∀ minSeq, a.threads.producer = .loaded minSeq →
      s.threads.producer = .loaded minSeq) : ReportsTell exponent told a where
  monotone := h.monotone
  counts := hnow ▸ hcounts
  tracks := htracks
  last := (congrArg told hnow).trans (h.last.trans hmin.symm)
  loaded := fun minSeq hpc => (h.loaded minSeq (hproducer minSeq hpc)).trans (h.monotone hseen)

/-- A report tells of the reads below it. -/
theorem ReportsTell.report (h : ReportsTell exponent told s) (hpast : s.memory.Past)
    (hmin : s.threads.journal.minConsumerSeq ≤ (s.threads.consumers 0).localSeq) (pc : ConsumerPc) :
    ReportsTell exponent
      (tellNext told (s.memory.now .minSeq) (s.threads.consumers 0).localSeq)
      { s with
        threads := { s.threads.setPc 0 pc with
          journal := { s.threads.journal with
            minConsumerSeq := (s.threads.consumers 0).localSeq } }
        memory := s.memory.storeRelease (.consumer 0) .minSeq (s.threads.consumers 0).localSeq } where
  monotone := tellNext_monotone h.monotone (h.last.trans_le hmin)
  counts := by
    rw [Memory.storeRelease_now_self]
    exact (h.counts.congr fun _ => tellNext_of_le).store_next (tellNext_succ _ _ _).symm
  tracks := by
    change Tracks _ _ _ _ _ _ ((s.threads.setPc 0 pc).consumers 0).localSeq
    rw [JournalRun.setPc_localSeq]
    exact (h.tracks.congr hpast fun _ => tellNext_of_le).store (fun _ heq => by cases heq)
      (tellNext_succ _ _ _).le
  last := by
    rw [Memory.storeRelease_now_self]
    exact tellNext_succ _ _ _
  loaded := fun minSeq hpc => by
    rw [Memory.storeRelease_seen_other (by decide), tellNext_of_le (hpast.seen .producer .minSeq)]
    exact h.loaded minSeq hpc

/-! ### The invariant -/

/-- What holds in every state of a run in which only slowest consumers store a report. -/
structure Inv (exponent numConsumers : ℕ) (items : ℕ → α) (s : OrderedJournalRun α) : Prop where
  threads : s.threads.Inv exponent numConsumers items
  past : s.memory.Past
  publishes : Publishes s.memory .producer .published .copied (fun j => j % 2 ^ exponent) id
    s.threads.sequence s.threads.copiedUpTo
  reported : ∀ i ≤ s.memory.now .minSeq,
    (s.memory.stores .minSeq i).value ≤ s.threads.journal.minConsumerSeq
  reports : numConsumers = 1 → ∃ told, ReportsTell exponent told s
  room : ∀ c < numConsumers, s.threads.copiedUpTo ≤ (s.threads.consumers c).localSeq + 2 ^ exponent
  loaded : ∀ c < numConsumers, s.loaded c ≤ s.memory.seen (.consumer c) .published

theorem start_inv [Inhabited α] (exponent numConsumers : ℕ) (items : ℕ → α) :
    Inv exponent numConsumers items start where
  threads := JournalRun.start_inv exponent numConsumers items
  past := Memory.start_past _
  publishes := start_publishes rfl
  reported := fun _ _ => le_rfl
  reports := fun _ => ⟨fun _ => 0, monotone_const, start_counts rfl, start_tracks rfl, rfl,
    fun _ hpc => by cases hpc⟩
  room := fun _ _ => Nat.zero_le _
  loaded := fun _ _ => le_rfl

/-! ### Steps of the producer -/

theorem Inv.loadMinSeq (h : Inv exponent numConsumers items s) (hpc : s.threads.producer = .start)
    {minSeq : ℕ} {memory : Memory JournalThread JournalPlace ℕ}
    (hload : s.memory.loadAcquire .producer .minSeq i = some (minSeq, memory)) :
    Inv exponent numConsumers items
      { s with threads := { s.threads with producer := .loaded minSeq }, memory } := by
  have hcopied : s.threads.copiedUpTo = s.threads.sequence := by
    rw [JournalRun.copiedUpTo, hpc]
  have hpublishes : Publishes (s.memory.acquire .producer .minSeq i) .producer .published .copied
      (fun j => j % 2 ^ exponent) id s.threads.sequence s.threads.copiedUpTo := h.publishes.acquire
  have hroom := h.room
  rw [hcopied] at hpublishes hroom
  obtain ⟨hmay, hvalue, rfl⟩ := Memory.loadAcquire_eq_some hload
  have hmin : minSeq ≤ s.threads.journal.minConsumerSeq :=
    hvalue.trans_le (h.reported i (Memory.mayLoad_iff.mp hmay).2)
  refine ⟨⟨h.threads.published_eq, fun minSeq hloaded => ?_, fun c hc => ?_⟩, h.past.acquire,
    hpublishes, h.reported, fun hone => ?_, hroom, fun c hc => ?_⟩
  · cases hloaded
    exact hmin
  · have hserves := h.threads.consumer c hc
    have hunread := hserves.unread
    rw [hcopied] at hunread
    exact ⟨hserves.min_le, hserves.local_le, (fun hpc => by cases hpc), hunread, hserves.seen⟩
  · obtain ⟨told, htell⟩ := h.reports hone
    obtain ⟨htold, -, hseen, -⟩ := htell.counts.loadAcquire hload
    refine ⟨told, htell.monotone, htell.counts.acquire, htell.tracks.acquire htell.monotone,
      htell.last, fun minSeq hloaded => ?_⟩
    cases hloaded
    exact htold.trans_le (htell.monotone hseen.ge)
  · exact (h.loaded c hc).trans (s.memory.seen_le_acquire _ _ _ _ _)

/-- The copy of an item into its slot. -/
theorem Inv.copyItem (h : Inv exponent numConsumers items s) {minSeq : ℕ}
    (hpc : s.threads.producer = .loaded minSeq)
    (hroom : BroadcastJournal.wouldLap exponent s.threads.sequence minSeq = false) :
    Inv exponent numConsumers items { s with
      threads := { s.threads with
        journal := s.threads.journal.copyItem exponent s.threads.sequence (items s.threads.sequence)
        producer := .copied }
      memory := s.memory.event .producer
        (.copied (BroadcastJournal.slotOf exponent s.threads.sequence)) } := by
  have hthreads := h.threads.produce
  simp only [JournalRun.produce, hpc, hroom, Bool.false_eq_true, if_false] at hthreads
  have hpublishes := h.publishes
  rw [JournalRun.copiedUpTo, hpc] at hpublishes
  refine ⟨hthreads, h.past.event, ?_, fun i hi => ?_, fun hone => ?_,
    fun c hc => (hthreads.consumer c hc).overwritten rfl,
    fun c hc => (h.loaded c hc).trans (h.past.seen_le_event _ _)⟩
  · rw [BroadcastJournal.slotOf_eq]
    exact hpublishes.access_next h.past (fun _ _ => JournalPlace.copied.inj)
      fun _ heq => by cases heq
  · exact h.reported i (hi.trans_eq (Memory.event_now_of_ne fun heq => by cases heq))
  · obtain ⟨told, htell⟩ := h.reports hone
    exact ⟨told, htell.move (Memory.event_now_of_ne fun heq => by cases heq)
      (htell.counts.event_of_ne fun heq => by cases heq)
      (htell.tracks.event_of_ne h.past (fun heq => by cases heq) fun _ heq => by cases heq) rfl
      (h.past.seen_le_event _ _) fun _ hpc => by cases hpc⟩

theorem Inv.storePublished (h : Inv exponent numConsumers items s)
    (hpc : s.threads.producer = .copied) :
    Inv exponent numConsumers items { s with
      threads := { s.threads with
        journal := s.threads.journal.storePublished s.threads.sequence
        producer := .start
        sequence := s.threads.sequence + 1 }
      memory := s.memory.storeRelease .producer .published (s.threads.sequence + 1) } := by
  have hthreads := h.threads.produce
  simp only [JournalRun.produce, hpc] at hthreads
  have hpublishes := h.publishes
  have hroom := h.room
  rw [JournalRun.copiedUpTo, hpc] at hpublishes hroom
  refine ⟨hthreads, h.past.storeRelease,
    hpublishes.store_next (fun _ heq => by cases heq) le_rfl rfl,
    Memory.stored_le_of_ne h.reported (by decide), fun hone => ?_, hroom,
    fun c hc => (h.loaded c hc).trans (h.past.seen_le_storeRelease _ _)⟩
  obtain ⟨told, htell⟩ := h.reports hone
  exact ⟨told, htell.move (Memory.storeRelease_now_of_ne (by decide))
    (htell.counts.storeRelease_of_ne (by decide))
    (htell.tracks.storeRelease_of_ne h.past (by decide) fun _ heq => by cases heq) rfl
    (h.past.seen_le_storeRelease _ _) fun _ hpc => by cases hpc⟩

theorem Inv.produce (h : Inv exponent numConsumers items s)
    (hstep : s.produce exponent items i = some s') : Inv exponent numConsumers items s' := by
  unfold OrderedJournalRun.produce at hstep
  cases hpc : s.threads.producer with
  | start =>
    simp only [hpc] at hstep
    obtain ⟨⟨minSeq, memory⟩, hload, rfl⟩ := Option.map_eq_some_iff.mp hstep
    exact h.loadMinSeq hpc hload
  | loaded minSeq =>
    simp only [hpc] at hstep
    split at hstep
    · rename_i hlap
      obtain rfl := Option.some.inj hstep
      have hthreads := h.threads.produce
      simp only [JournalRun.produce, hpc, hlap, if_true] at hthreads
      have hpublishes := h.publishes
      have hroom := h.room
      rw [JournalRun.copiedUpTo, hpc] at hpublishes hroom
      refine ⟨hthreads, h.past, hpublishes, h.reported, fun hone => ?_, hroom, h.loaded⟩
      obtain ⟨told, htell⟩ := h.reports hone
      exact ⟨told, htell.move rfl htell.counts htell.tracks rfl le_rfl fun _ hpc => by cases hpc⟩
    · rename_i hroom
      obtain rfl := Option.some.inj hstep
      exact h.copyItem hpc (Bool.eq_false_iff.mpr hroom)
  | copied =>
    simp only [hpc] at hstep
    obtain rfl := Option.some.inj hstep
    exact h.storePublished hpc

/-! ### Steps of a consumer -/

theorem Inv.load (h : Inv exponent numConsumers items s) (hstep : s.load c i = some s') :
    Inv exponent numConsumers items s' := by
  unfold OrderedJournalRun.load at hstep
  split at hstep
  · obtain ⟨⟨published, memory⟩, hload, rfl⟩ := Option.map_eq_some_iff.mp hstep
    obtain ⟨rfl, -, hseen, rfl⟩ := h.publishes.loadAcquire hload
    refine ⟨h.threads, h.past.acquire, h.publishes.acquire, h.reported, fun hone => ?_, h.room,
      fun c' hc' => ?_⟩
    · obtain ⟨told, htell⟩ := h.reports hone
      exact ⟨told, htell.move rfl htell.counts.acquire (htell.tracks.acquire htell.monotone) rfl
        (s.memory.seen_le_acquire _ _ _ _ _) fun _ hpc => hpc⟩
    · by_cases hcc : c' = c
      · subst hcc
        dsimp only
        rw [Function.update_self]
        exact hseen.ge
      · dsimp only
        rw [Function.update_of_ne hcc]
        exact (h.loaded c' hc').trans (s.memory.seen_le_acquire _ _ _ _ _)
  · contradiction

/-- The index that a consumer has loaded, old or new, is of items that are published. -/
theorem Inv.loaded_le (h : Inv exponent numConsumers items s) (hc : c < numConsumers) :
    s.loaded c ≤ s.threads.journal.getPublishedIndex :=
  calc s.loaded c ≤ s.memory.seen (.consumer c) .published := h.loaded c hc
    _ ≤ s.memory.now .published := h.past.seen (.consumer c) .published
    _ = s.threads.sequence := h.publishes.index_now
    _ = s.threads.journal.getPublishedIndex := h.threads.published_eq.symm

/-- A consumer reads a slot of an item that is published. -/
theorem Inv.read (h : Inv exponent numConsumers items s) (hc : c < numConsumers)
    (hstep : s.read exponent c = some s') : Inv exponent numConsumers items s' := by
  unfold OrderedJournalRun.read at hstep
  dsimp only at hstep
  cases hpc : (s.threads.consumers c).pc with
  | reading =>
    simp only [hpc] at hstep
    obtain ⟨hlt, hread⟩ := Option.ite_none_right_eq_some.mp hstep
    obtain rfl := Option.some.inj hread
    have hthreads : s.threads.read exponent c = some (s.threads.setConsumer c
        { s.threads.consumers c with
          localSeq := (s.threads.consumers c).localSeq + 1
          seen := (s.threads.consumers c).seen ++
            [s.threads.journal.getPayload exponent (s.threads.consumers c).localSeq] }) := by
      unfold JournalRun.read
      dsimp only
      rw [hpc]
      exact if_pos (hlt.trans_le (h.loaded_le hc))
    have hlocal := fun consumer : JournalConsumer α =>
      congrArg JournalConsumer.localSeq (s.threads.setConsumer_self c consumer)
    simp only [hpc] at hthreads
    refine ⟨h.threads.read hthreads, h.past.event, h.publishes.event_of_ne h.past
      (fun heq => by cases heq) (fun _ heq => by cases heq), fun i hi => ?_, fun hone => ?_,
      fun c' hc' => ?_, fun c' hc' => (h.loaded c' hc').trans (h.past.seen_le_event _ _)⟩
    · exact h.reported i (hi.trans_eq (Memory.event_now_of_ne fun heq => by cases heq))
    · obtain rfl : c = 0 := by omega
      obtain ⟨told, htell⟩ := h.reports hone
      refine ⟨told, htell.move (Memory.event_now_of_ne fun heq => by cases heq)
        (htell.counts.event_of_ne fun heq => by cases heq) ?_ rfl (h.past.seen_le_event _ _)
        fun _ hpc => hpc⟩
      rw [hlocal, BroadcastJournal.slotOf_eq]
      exact htell.tracks.access_next h.past (fun _ _ heq => (JournalPlace.read.inj heq).2)
        fun _ heq => by cases heq
    · by_cases hcc : c' = c
      · subst hcc
        rw [hlocal]
        exact (h.room c' hc').trans (Nat.add_le_add_right (Nat.le_succ _) _)
      · rw [JournalRun.setConsumer_of_ne hcc]
        exact h.room c' hc'
  | reporting currentMin =>
    simp only [hpc] at hstep
    contradiction

/-- A consumer at another place, where it is in no call or has loaded the minimum. -/
theorem Inv.setPc (h : Inv exponent numConsumers items s) (c : ℕ) (pc : ConsumerPc) :
    Inv exponent numConsumers items { s with threads := s.threads.setPc c pc } := by
  have hlocal := s.threads.setPc_localSeq c pc
  refine ⟨h.threads.setPc c pc, h.past, h.publishes, h.reported, fun hone => ?_, fun c' hc' => ?_,
    h.loaded⟩
  · obtain ⟨told, htell⟩ := h.reports hone
    refine ⟨told, htell.move rfl htell.counts ?_ rfl le_rfl fun _ hpc => hpc⟩
    rw [hlocal]
    exact htell.tracks
  · rw [hlocal]
    exact h.room c' hc'

/-- A relaxed load tells of nothing else; the only consumer loads what it has stored last. -/
theorem Inv.observe (h : Inv exponent numConsumers items s) (hc : c < numConsumers) {currentMin : ℕ}
    {memory : Memory JournalThread JournalPlace ℕ}
    (hload : s.memory.loadRelaxed (.consumer c) .minSeq i = some (currentMin, memory)) :
    Inv exponent numConsumers items { s with memory } := by
  obtain ⟨hmay, -, rfl⟩ := Memory.loadRelaxed_eq_some hload
  refine ⟨h.threads, h.past.observe hmay, h.publishes.observe hmay (by decide), h.reported,
    fun hone => ?_, h.room, fun c' hc' => (h.loaded c' hc').trans (Memory.seen_le_observe hmay _ _)⟩
  obtain rfl : c = 0 := by omega
  obtain ⟨told, htell⟩ := h.reports hone
  obtain ⟨-, hsame⟩ := htell.counts.loadRelaxed hload
  rw [hsame]
  exact ⟨told, htell⟩

theorem Inv.loadMinimum (h : Inv exponent numConsumers items s) (hc : c < numConsumers)
    (hstep : s.loadMinimum c i = some s') : Inv exponent numConsumers items s' := by
  obtain ⟨⟨currentMin, memory⟩, hload, rfl⟩ := Option.map_eq_some_iff.mp hstep
  exact (h.observe hc hload).setPc c _

/-- A report that takes effect is that of a slowest consumer. -/
theorem Inv.report (h : Inv exponent numConsumers items s) (hc : c < numConsumers)
    {currentMin : ℕ} (hpc : (s.threads.consumers c).pc = .reporting currentMin)
    (hgt : (s.threads.consumers c).localSeq > currentMin)
    (hmin : s.threads.journal.minConsumerSeq = currentMin)
    (hslowest : s.threads.SlowestReports numConsumers (.compareExchange c false)) :
    Inv exponent numConsumers items { s with
      threads := { s.threads.setPc c .reading with
        journal := { s.threads.journal with
          minConsumerSeq := (s.threads.consumers c).localSeq } }
      memory := s.memory.storeRelease (.consumer c) .minSeq (s.threads.consumers c).localSeq } := by
  have hthreads : s.threads.compareExchange c false = some { s.threads.setPc c .reading with
      journal := { s.threads.journal with
        minConsumerSeq := (s.threads.consumers c).localSeq } } := by
    unfold JournalRun.compareExchange
    dsimp only
    rw [hpc]
    exact (if_pos hgt).trans (if_pos ⟨hmin, rfl⟩)
  have hraised := hmin.trans_le hgt.le
  refine ⟨h.threads.compareExchange hc hslowest hthreads, h.past.storeRelease,
    h.publishes.storeRelease_of_ne h.past (by decide) (fun _ heq => by cases heq),
    Memory.stored_le_storeRelease h.reported hraised le_rfl, fun hone => ?_, fun c' hc' => ?_,
    fun c' hc' => (h.loaded c' hc').trans (h.past.seen_le_storeRelease _ _)⟩
  · obtain rfl : c = 0 := by omega
    obtain ⟨told, htell⟩ := h.reports hone
    exact ⟨_, htell.report h.past hraised .reading⟩
  · change _ ≤ ((s.threads.setPc c .reading).consumers c').localSeq + 2 ^ exponent
    rw [JournalRun.setPc_localSeq]
    exact h.room c' hc'

theorem Inv.compareExchange (h : Inv exponent numConsumers items s) (hc : c < numConsumers)
    {spurious : Bool} (hslowest : SlowestReports numConsumers s (.compareExchange c spurious i))
    (hstep : s.compareExchange c spurious i = some s') : Inv exponent numConsumers items s' := by
  unfold OrderedJournalRun.compareExchange at hstep
  dsimp only at hstep
  cases hpc : (s.threads.consumers c).pc with
  | reading =>
    simp only [hpc] at hstep
    contradiction
  | reporting currentMin =>
    simp only [hpc] at hstep
    obtain ⟨hgt, hexchange⟩ := Option.ite_none_right_eq_some.mp hstep
    split at hexchange
    · rename_i hmin
      obtain ⟨hmin, rfl⟩ := hmin
      exact Option.some.inj hexchange ▸ h.report hc hpc hgt hmin (hslowest c i rfl)
    · exact h.loadMinimum hc hexchange

theorem Inv.step (h : Inv exponent numConsumers items s) {a : OrderedJournalAction}
    (hslowest : SlowestReports numConsumers s a)
    (hstep : s.step exponent numConsumers items a = some s') :
    Inv exponent numConsumers items s' := by
  cases a with
  | produce i => exact h.produce hstep
  | load c i => exact h.load (Option.ite_none_right_eq_some.mp hstep).2
  | read c =>
    obtain ⟨hc, hread⟩ := Option.ite_none_right_eq_some.mp hstep
    exact h.read hc hread
  | beginReport c i =>
    obtain ⟨hc, hbegin⟩ := Option.ite_none_right_eq_some.mp hstep
    unfold OrderedJournalRun.beginReport at hbegin
    split at hbegin
    · exact h.loadMinimum hc hbegin
    · contradiction
  | compareExchange c spurious i =>
    obtain ⟨hc, hexchange⟩ := Option.ite_none_right_eq_some.mp hstep
    exact h.compareExchange hc hslowest hexchange
  | endReport c =>
    have hend := (Option.ite_none_right_eq_some.mp hstep).2
    unfold OrderedJournalRun.endReport at hend
    split at hend
    · obtain ⟨-, hleft⟩ := Option.ite_none_left_eq_some.mp hend
      exact Option.some.inj hleft ▸ h.setPc c .reading
    · contradiction

/-! ### Order -/

/-- A consumer knows of the copies below the index that it has loaded, and no later copy is into the
slot of the next item. -/
theorem Inv.knows_copied (h : Inv exponent numConsumers items s) (hc : c < numConsumers)
    (hlt : (s.threads.consumers c).localSeq < s.loaded c) : s.memory.Knows (.consumer c)
      (.copied (BroadcastJournal.slotOf exponent (s.threads.consumers c).localSeq)) := by
  rw [BroadcastJournal.slotOf_eq]
  refine h.publishes.knows (hlt.trans_le (h.loaded c hc)) fun j hj hcopied =>
    (RingWindow.slot_ne ?_ ?_).symm
  · exact hj
  · exact hcopied.trans_le (h.room c hc)

/-- The producer knows of the reads below the minimum that it has loaded, and no later read is of the
slot of the next item. -/
theorem Inv.knows_read (h : Inv exponent 1 items s) {minSeq : ℕ}
    (hpc : s.threads.producer = .loaded minSeq)
    (hroom : BroadcastJournal.wouldLap exponent s.threads.sequence minSeq = false) :
    s.memory.Knows .producer (.read 0 (BroadcastJournal.slotOf exponent s.threads.sequence)) := by
  obtain ⟨told, htell⟩ := h.reports rfl
  have hlocal := (h.threads.consumer 0 Nat.one_pos).local_le
  have hlt : s.threads.sequence - minSeq < 2 ^ exponent :=
    Nat.lt_of_not_ge (of_decide_eq_false hroom)
  rw [BroadcastJournal.slotOf_eq]
  refine htell.tracks.knows (htell.loaded minSeq hpc) fun j hj hread => RingWindow.slot_ne ?_ ?_
  · exact hread.trans_le hlocal
  · omega

theorem Inv.suffices (h : Inv exponent numConsumers items s) :
    Suffices exponent numConsumers items s where
  safe := h.threads.safe
  read := fun _ hc _ hlt => h.knows_copied hc hlt
  copied := fun hone minSeq hpc hroom => by
    subst hone
    exact h.knows_read hpc hroom

/-- The step of a report that takes effect stores what the consumer has read. -/
theorem step_of_exchanges (hc : c < numConsumers) (hexchanges : s.threads.Exchanges c) :
    s.step exponent numConsumers items (.compareExchange c false i) = some { s with
      threads := { s.threads.setPc c .reading with
        journal := { s.threads.journal with
          minConsumerSeq := (s.threads.consumers c).localSeq } }
      memory := s.memory.storeRelease (.consumer c) .minSeq (s.threads.consumers c).localSeq } := by
  unfold JournalRun.Exchanges at hexchanges
  rw [step, if_pos hc, compareExchange]
  cases hpc : (s.threads.consumers c).pc with
  | reading =>
    rw [hpc] at hexchanges
    exact hexchanges.elim
  | reporting currentMin =>
    rw [hpc] at hexchanges
    exact (if_pos hexchanges.1).trans (if_pos (And.intro hexchanges.2 rfl))

/-- The memory orders of the journal suffice in every state of a run, whatever old minima and indices
are loaded, exactly when every report that takes effect in it is that of a slowest consumer. -/
theorem suffices_iff_slowestReports [Inhabited α] (exponent numConsumers : ℕ) (items : ℕ → α)
    (actions : List OrderedJournalAction) :
    (∀ before s, before <+: actions →
      run (OrderedJournalRun.step exponent numConsumers items) start before = some s →
      Suffices exponent numConsumers items s) ↔
    Guarded (OrderedJournalRun.step exponent numConsumers items) (SlowestReports numConsumers) start
      actions := by
  constructor
  · intro hsuffices before a s hbefore hrun c i ha c₁ hc ha' hexchanges c' hc'
    obtain rfl : c = c₁ := (JournalAction.compareExchange.inj ha').1
    subst ha
    have hafter := run_snoc_eq_some_iff.mpr ⟨s, hrun, step_of_exchanges (i := i) hc hexchanges⟩
    have hmin := (hsuffices _ _ hbefore hafter).safe.min_le c' hc'
    change (s.threads.consumers c).localSeq ≤
      ((s.threads.setPc c .reading).consumers c').localSeq at hmin
    rwa [JournalRun.setPc_localSeq] at hmin
  · intro hguard before s hbefore hrun
    exact (guarded_invariant (fun _ _ _ h hslowest hstep => Inv.step h hslowest hstep)
      (start_inv exponent numConsumers items) (hguard.of_prefix hbefore) hrun).suffices

/-- Two slots and two consumers: the second has read both items when the first, which has read one,
reports; the producer is refused with an old minimum and then copies the third item with the last
one. -/
def oldMinimum : List OrderedJournalAction :=
  List.replicate 6 (.produce 0) ++
    [.load 0 1, .read 0, .load 1 2, .read 1, .read 1, .beginReport 0 0, .compareExchange 0 false 0,
      .produce 0, .produce 0, .produce 1, .produce 0, .produce 0, .load 0 2, .read 0, .load 0 3,
      .read 0, .load 1 3, .read 1]

/-- Both consumers read the third item from the slot of the first. -/
theorem oldMinimum_suffices :
    ∃ s, run (OrderedJournalRun.step 1 2 fun j => j + 10) start oldMinimum = some s ∧
      ∀ c < 2, (s.threads.consumers c).seen = [10, 11, 12] := by
  have hends : (run (OrderedJournalRun.step 1 2 fun j => j + 10) start oldMinimum).any
      (fun s => ∀ c < 2, (s.threads.consumers c).localSeq = 3) = true := by decide +kernel
  have hslowest : Guarded (OrderedJournalRun.step 1 2 fun j => j + 10) (SlowestReports 2) start
      oldMinimum := by decide +kernel
  obtain ⟨s, hrun, hs⟩ := (Option.any_eq_true _ _).mp hends
  have hsuffices := (suffices_iff_slowestReports 1 2 _ oldMinimum).mpr hslowest oldMinimum s
    List.prefix_rfl hrun
  refine ⟨s, hrun, fun c hc => ?_⟩
  rw [hsuffices.safe.seen c hc, of_decide_eq_true hs c hc]
  rfl

end OrderedJournalRun

end NanoRing
