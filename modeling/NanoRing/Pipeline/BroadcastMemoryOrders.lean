import NanoRing.Pipeline.OrderedBroadcastInvariant

/-!
# The broadcast pipeline under its memory orders

A thread that loads an index, old or new, knows of the copies of all orders below it. Nothing goes the
other way: `publish` loads nothing, and what the threads report in `min_consumer_seq_` nobody loads
with acquire. So the memory orders suffice for the first `2 ^ 17` orders, each of which has a slot of
its own; and a copy that takes a slot again is never safe, since it either laps a thread or is not
ordered after the reads of that thread.
-/

namespace NanoRing

open MemoryOrder Schedule

namespace OrderedBroadcastRun

variable {orders : List DecodedOrder} {numThreads : ℕ} {s s' : OrderedBroadcastRun} {t i : ℕ}

/-! ### Accesses of the producer -/

theorem Inv.refines_publish (h : Inv orders numThreads s) {a : BroadcastAccessRun}
    (hkeepsUp : BroadcastAccessRun.KeepsUp orders numThreads s.accesses .publish)
    (hstep : s.accesses.publishStep orders = some a) :
    ∃ c, BroadcastAccessRun.Refines orders numThreads a c := by
  obtain ⟨c, hrefines⟩ := h.refines
  obtain hsame | ⟨c', -, -, hmoved⟩ := hrefines.publishStep hkeepsUp hstep
  · exact ⟨c, hsame⟩
  · exact ⟨c', hmoved⟩

/-- A copy into a slot that is not taken yet. -/
theorem Inv.copied (h : Inv orders numThreads s) (hpast : s.memory.Past) {a : BroadcastAccessRun}
    (hpublish : s.accesses.publish = .copyItem)
    (hcopied : s.accesses.pipeline.nextOrder < 2 ^ journalExponent)
    (hstep : s.accesses.publishStep orders = some a) :
    Inv orders numThreads ⟨a, s.memory.event .producer
      (.copied (BroadcastJournal.slotOf journalExponent s.accesses.pipeline.nextOrder))⟩ := by
  have hkeepsUp : BroadcastAccessRun.KeepsUp orders numThreads s.accesses .publish :=
    fun _ _ _ _ t _ => hcopied.trans_le (Nat.le_add_left _ _)
  have hrefines := h.refines_publish hkeepsUp hstep
  have hthreads := BroadcastAccessRun.publishStep_threads hstep
  have hjournal := h.journal
  rw [BroadcastAccessRun.copied, hpublish] at hjournal
  simp only [BroadcastAccessRun.publishStep, hpublish] at hstep
  split at hstep
  · obtain rfl := Option.some.inj hstep
    refine h.moveProducer hrefines hthreads le_rfl ?_ (fun thread p => hpast.seen_le_event thread p)
      fun t slot => Memory.event_now_of_ne fun heq => by cases heq
    rw [BroadcastJournal.slotOf_eq]
    exact hjournal.copyItem hpast
  · contradiction

theorem Inv.published (h : Inv orders numThreads s) (hpast : s.memory.Past) {a : BroadcastAccessRun}
    (hpublish : s.accesses.publish = .storePublished)
    (hstep : s.accesses.publishStep orders = some a) :
    Inv orders numThreads ⟨a, s.memory.storeRelease .producer .published
      (s.accesses.pipeline.nextOrder + 1)⟩ := by
  have hkeepsUp : BroadcastAccessRun.KeepsUp orders numThreads s.accesses .publish :=
    fun _ hcopy => by cases hpublish.symm.trans hcopy
  have hrefines := h.refines_publish hkeepsUp hstep
  have hdone : s.accesses.pipeline.producerDone = false := by
    obtain ⟨c, hrefines⟩ := h.refines
    have hsound := hrefines.publish
    rw [hpublish] at hsound
    rw [Bool.eq_false_iff, hrefines.producerDone_eq]
    intro hset
    exact hsound.1.ne (hrefines.inv.next_of_done hset)
  have hjournal := h.journal
  rw [BroadcastAccessRun.copied, hpublish, hdone] at hjournal
  simp only [BroadcastAccessRun.publishStep, hpublish] at hstep
  obtain rfl := Option.some.inj hstep
  refine h.moveProducer hrefines rfl (Nat.le_succ _) ?_
    (fun thread p => hpast.seen_le_storeRelease thread p)
    fun t slot => Memory.storeRelease_now_of_ne fun heq => by cases heq
  dsimp only
  rw [hdone]
  exact hjournal.storePublished hpast

theorem Inv.setDone (h : Inv orders numThreads s) (hpast : s.memory.Past) {a : BroadcastAccessRun}
    (hstep : s.accesses.setDone orders = some a) :
    Inv orders numThreads ⟨a, s.memory.storeRelease .producer .done 1⟩ := by
  obtain ⟨c, hrefines⟩ := h.refines
  obtain ⟨c', -, hmoved⟩ := hrefines.setDone hstep
  obtain ⟨hdone, rfl⟩ := BroadcastAccessRun.setDone_eq_some hstep
  have hjournal := h.journal
  rw [hdone] at hjournal
  exact h.moveProducer ⟨c', hmoved⟩ rfl le_rfl (hjournal.setDone hpast)
    (fun thread p => hpast.seen_le_storeRelease thread p)
    fun t slot => Memory.storeRelease_now_of_ne fun heq => by cases heq

/-! ### What the producer never hears of -/

/-- What holds in every state, also when slots are taken again: the threads have read their slots,
and the producer knows of none of the reads. -/
structure Unheard (s : OrderedBroadcastRun) : Prop where
  past : s.memory.Past
  unknown : ∀ t slot, s.memory.seen .producer (.read t slot) = 0
  made : ∀ t, ∀ j < (s.accesses.pipeline.threads t).localSeq,
    0 < s.memory.now (.read t (BroadcastJournal.slotOf journalExponent j))

theorem start_unheard : Unheard start where
  past := Memory.start_past _
  unknown := fun _ _ => rfl
  made := fun _ j hj => absurd hj (Nat.not_lt_zero j)

/-- A thread gets on by reading only. -/
theorem Unheard.move (h : Unheard s) {a : BroadcastAccessRun} {m : BroadcastMemory}
    (hpast : m.Past) (hnow : ∀ p, s.memory.now p ≤ m.now p)
    (hunknown : ∀ t slot, m.seen .producer (.read t slot) =
      s.memory.seen .producer (.read t slot))
    (hmade : ∀ t, (a.pipeline.threads t).localSeq = (s.accesses.pipeline.threads t).localSeq ∨
      (a.pipeline.threads t).localSeq = (s.accesses.pipeline.threads t).localSeq + 1 ∧
        0 < m.now (.read t (BroadcastJournal.slotOf journalExponent
          (s.accesses.pipeline.threads t).localSeq))) : Unheard ⟨a, m⟩ where
  past := hpast
  unknown := fun t slot => (hunknown t slot).trans (h.unknown t slot)
  made := fun t j hj => by
    obtain hsame | ⟨hnext, hread⟩ := hmade t
    · exact (h.made t j (hj.trans_eq hsame)).trans_le (hnow _)
    · obtain hlt | rfl := Nat.lt_succ_iff_lt_or_eq.mp (hj.trans_eq hnext)
      · exact (h.made t j hlt).trans_le (hnow _)
      · exact hread

theorem producer_ne_book (t : ℕ) : PipelineThread.producer ≠ .book t := by
  intro h
  cases h

/-- A thread that reads a slot gets at most one further. -/
theorem Unheard.read (h : Unheard s) {a : BroadcastAccessRun}
    (hsame : ∀ t' ≠ t, a.pipeline.threads t' = s.accesses.pipeline.threads t')
    (hnext : (a.pipeline.threads t).localSeq = (s.accesses.pipeline.threads t).localSeq ∨
      (a.pipeline.threads t).localSeq = (s.accesses.pipeline.threads t).localSeq + 1) :
    Unheard ⟨a, s.memory.event (.book t) (.read t
      (BroadcastJournal.slotOf journalExponent (s.accesses.pipeline.threads t).localSeq))⟩ := by
  refine h.move h.past.event (fun p => Memory.now_le_event p) (fun t' slot => ?_) fun t' => ?_
  · exact congrFun (Memory.event_seen_other (producer_ne_book t)) _
  · by_cases hne : t' = t
    · subst hne
      refine hnext.imp_right fun hsucc => ⟨hsucc, ?_⟩
      rw [Memory.event_now_self]
      exact Nat.succ_pos _
    · exact .inl (congrArg BookThread.localSeq (hsame t' hne))

/-- What another thread learns, the producer does not. -/
theorem Unheard.load (h : Unheard s) {a : BroadcastAccessRun} {m : BroadcastMemory} (hpast : m.Past)
    (hnow : m.now = s.memory.now)
    (hseen : m.seen .producer = s.memory.seen .producer)
    (hsame : ∀ t, (a.pipeline.threads t).localSeq = (s.accesses.pipeline.threads t).localSeq) :
    Unheard ⟨a, m⟩ :=
  h.move hpast (fun p => (congrFun hnow p).ge) (fun _ _ => congrFun hseen _) fun t => .inl (hsame t)

theorem Unheard.threadMoves (h : Unheard s) (hmoves : ThreadMoves numThreads s t s') :
    Unheard s' := by
  have hbook := producer_ne_book t
  cases hmoves with
  | loaded hread hpc hload | tested hread hpc hload | again hread hpc hload =>
    obtain ⟨-, -, rfl⟩ := Memory.loadAcquire_eq_some hload
    exact h.load h.past.acquire rfl (Memory.acquire_seen_of_ne hbook) (s.accesses.goTo_localSeq t _)
  | left hread hpc hload hall =>
    obtain ⟨-, -, rfl⟩ := Memory.loadAcquire_eq_some hload
    exact h.load h.past.acquire rfl (Memory.acquire_seen_of_ne hbook)
      (s.accesses.goTo_localSeq t .exited)
  | matched => exact h.read (fun _ _ => rfl) (.inl rfl)
  | skimmed | applied =>
    refine h.read (fun t' hne => BroadcastRun.setThread_of_ne hne _) (.inr ?_)
    exact congrArg BookThread.localSeq (BroadcastRun.setThread_self s.accesses.pipeline t _)
  | drained | outrun => exact h.load h.past rfl rfl (s.accesses.goTo_localSeq t _)
  | asked hreport hload =>
    obtain ⟨hmay, -, rfl⟩ := Memory.loadRelaxed_eq_some hload
    exact h.load (h.past.observe hmay) rfl (Memory.observe_seen_of_ne hbook) fun _ => rfl
  | reported =>
    refine h.move h.past.storeRelease (fun p => Memory.now_le_storeRelease p) (fun t' slot => ?_)
      fun t' => .inl (s.accesses.goTo_localSeq t .loadPublished t')
    exact congrFun (Memory.storeRelease_seen_other hbook) _

/-- The producer learns nothing of the reads. -/
theorem Unheard.produce (h : Unheard s) {a : BroadcastAccessRun} {p : BroadcastPlace} {v : ℕ}
    (hsame : a.pipeline.threads = s.accesses.pipeline.threads)
    (hplace : ∀ t slot, .read t slot ≠ p) :
    Unheard ⟨a, s.memory.event .producer p⟩ ∧ Unheard ⟨a, s.memory.storeRelease .producer p v⟩ := by
  have hlocal := fun t => congrArg BookThread.localSeq (congrFun hsame t)
  exact ⟨h.move h.past.event (fun q => Memory.now_le_event q)
      (fun t slot => Memory.event_seen_of_ne (hplace t slot) _) fun t => .inl (hlocal t),
    h.move h.past.storeRelease (fun q => Memory.now_le_storeRelease q)
      (fun t slot => Memory.storeRelease_seen_of_ne (hplace t slot) _) fun t => .inl (hlocal t)⟩

theorem Unheard.publishStep (h : Unheard s) (hstep : s.publishStep orders = some s') :
    Unheard s' := by
  obtain ⟨a, hpublish, rfl⟩ := Option.map_eq_some_iff.mp hstep
  have hsame := BroadcastAccessRun.publishStep_threads hpublish
  cases s.accesses.publish with
  | copyItem => exact (h.produce (v := 0) hsame fun _ _ heq => by cases heq).1
  | storePublished => exact (h.produce hsame fun _ _ heq => by cases heq).2

theorem Unheard.setDone (h : Unheard s) (hstep : s.setDone orders = some s') : Unheard s' := by
  obtain ⟨a, hdone, rfl⟩ := Option.map_eq_some_iff.mp hstep
  have hsame : a.pipeline.threads = s.accesses.pipeline.threads := by
    obtain ⟨-, rfl⟩ := BroadcastAccessRun.setDone_eq_some hdone
    rfl
  exact (h.produce hsame fun _ _ heq => by cases heq).2

/-! ### Runs -/

theorem ThreadMoves.copied_eq (h : ThreadMoves numThreads s t s') :
    s'.accesses.copied = s.accesses.copied := by
  cases h <;> rfl

/-- What holds in every state: the invariant does until a slot is taken again. -/
structure Sound (orders : List DecodedOrder) (numThreads : ℕ) (s : OrderedBroadcastRun) : Prop where
  unheard : Unheard s
  inv : s.accesses.copied ≤ 2 ^ journalExponent → Inv orders numThreads s

theorem Sound.threadMoves (h : Sound orders numThreads s) (ht : t < numThreads)
    (hmoves : ThreadMoves numThreads s t s') : Sound orders numThreads s' := by
  refine ⟨h.unheard.threadMoves hmoves, fun hcopied => ?_⟩
  rw [hmoves.copied_eq] at hcopied
  exact (h.inv hcopied).threadMoves h.unheard.past ht hmoves

theorem Sound.publishStep (h : Sound orders numThreads s) (hstep : s.publishStep orders = some s') :
    Sound orders numThreads s' := by
  refine ⟨h.unheard.publishStep hstep, fun hcopied => ?_⟩
  obtain ⟨a, hpublish, rfl⟩ := Option.map_eq_some_iff.mp hstep
  have hinv := h.inv ((BroadcastAccessRun.copied_le_publishStep hpublish).trans hcopied)
  cases haccess : s.accesses.publish with
  | copyItem =>
    refine hinv.copied h.unheard.past haccess ?_ hpublish
    simp only [BroadcastAccessRun.publishStep, haccess] at hpublish
    split at hpublish
    · obtain rfl := Option.some.inj hpublish
      exact hcopied
    · contradiction
  | storePublished => exact hinv.published h.unheard.past haccess hpublish

theorem Sound.setDone (h : Sound orders numThreads s) (hstep : s.setDone orders = some s') :
    Sound orders numThreads s' := by
  refine ⟨h.unheard.setDone hstep, fun hcopied => ?_⟩
  obtain ⟨a, hdone, rfl⟩ := Option.map_eq_some_iff.mp hstep
  have hsame : a.copied = s.accesses.copied := by
    obtain ⟨-, rfl⟩ := BroadcastAccessRun.setDone_eq_some hdone
    rfl
  exact (h.inv (hsame.symm.trans_le hcopied)).setDone h.unheard.past hdone

theorem Sound.step (h : Sound orders numThreads s) {a : BroadcastAccess × ℕ}
    (hstep : s.step orders numThreads a = some s') : Sound orders numThreads s' := by
  obtain ⟨action, i⟩ := a
  cases action with
  | publish => exact h.publishStep hstep
  | setDone => exact h.setDone hstep
  | thread t =>
    obtain ⟨ht, hthread⟩ := Option.ite_none_right_eq_some.mp hstep
    exact h.threadMoves ht (threadMoves_of_threadStep hthread)
  | spurious t =>
    obtain ⟨ht, hspurious⟩ := Option.ite_none_right_eq_some.mp hstep
    exact h.threadMoves ht (threadMoves_of_spuriousStep hspurious)

/-! ### Order -/

/-- A thread that reads an order has loaded an index that tells of the copy. -/
theorem Inv.knows_copied (h : Inv orders numThreads s) (ht : t < numThreads)
    (hcopied : s.accesses.copied ≤ 2 ^ journalExponent) (hreading : s.accesses.Reading t) :
    s.memory.Knows (.book t) (.copied
      (BroadcastJournal.slotOf journalExponent (s.accesses.pipeline.threads t).localSeq)) := by
  obtain ⟨published, hpc, hlt⟩ := h.published_of_reading ht hreading
  have hseen := hlt.trans_le (h.draining t ht published hpc)
  rw [BroadcastJournal.slotOf_eq]
  refine h.journal.publishes.knows le_rfl fun j hj hlast => (RingWindow.slot_ne ?_ ?_).symm
  · exact hseen.trans_le hj
  · exact (hlast.trans_le hcopied).trans_le (Nat.le_add_left _ _)

/-- A copy that takes a slot again and laps no thread follows a read that the producer does not know
of. -/
theorem Unheard.lt_of_copySafe (h : Unheard s) (hsafe : CopySafe s t) :
    s.accesses.pipeline.nextOrder < 2 ^ journalExponent := by
  by_contra hagain
  have hge := Nat.le_of_not_lt hagain
  have hread : s.accesses.pipeline.nextOrder - 2 ^ journalExponent <
      (s.accesses.pipeline.threads t).localSeq := by
    have hkeepsUp := hsafe.keepsUp
    omega
  have hslot : BroadcastJournal.slotOf journalExponent
      (s.accesses.pipeline.nextOrder - 2 ^ journalExponent) =
        BroadcastJournal.slotOf journalExponent s.accesses.pipeline.nextOrder := by
    rw [BroadcastJournal.slotOf_eq, BroadcastJournal.slotOf_eq, ← Nat.mod_eq_sub_mod hge]
  have hmade := h.made t _ hread
  rw [hslot] at hmade
  exact hmade.not_ge (hsafe.after.trans_eq (h.unknown t _))

/-- A slot that is taken for the first time has not been read. -/
theorem Inv.copySafe (h : Inv orders numThreads s) (ht : t < numThreads)
    (hfirst : s.accesses.pipeline.nextOrder < 2 ^ journalExponent) : CopySafe s t where
  keepsUp := hfirst.trans_le (Nat.le_add_left _ _)
  after := by
    rw [BroadcastJournal.slotOf_eq, Nat.mod_eq_of_lt hfirst]
    exact (h.fresh t ht _ le_rfl).trans_le (Nat.zero_le _)

/-- The memory orders of the broadcast pipeline suffice as long as no slot of the journal is taken
again, whatever old indices and flags the threads load. A copy that takes a slot again is unsafe in
every run: it laps a thread, or the thread's read of the slot is not ordered before it. -/
theorem broadcast_memory_orders_suffice (hthreads : 1 ≤ numThreads)
    {actions : List (BroadcastAccess × ℕ)}
    (hrun : run (OrderedBroadcastRun.step orders numThreads) start actions = some s) :
    Suffices orders numThreads s := by
  have h : Sound orders numThreads s := run_invariant (fun _ _ _ h hstep => h.step hstep)
    ⟨start_unheard, fun _ => start_inv orders numThreads⟩ hrun
  refine ⟨fun hcopied => ?_, fun hcopied t ht hreading => (h.inv hcopied).knows_copied ht hcopied
    hreading, fun hpublish t ht => ⟨h.unheard.lt_of_copySafe, fun hfirst => ?_⟩⟩
  · obtain ⟨c, hrefines⟩ := (h.inv hcopied).refines
    exact hrefines.delivers hthreads
  · have hcopied : s.accesses.copied = s.accesses.pipeline.nextOrder := by
      rw [BroadcastAccessRun.copied, hpublish]
    exact (h.inv (hcopied.trans_le hfirst.le)).copySafe ht hfirst

/-- The threads load old indices, old minima and old flags after these have been stored again, then
the last ones. -/
def lateReader : List (BroadcastAccess × ℕ) :=
  [(.publish, 0), (.publish, 0)] ++ [0, 0, 1, 0, 0, 0, 0, 0].map (.thread 0, ·) ++
    List.replicate 4 (.publish, 0) ++ [(.setDone, 0)] ++
    [1, 0, 0, 0, 1, 0, 2, 0, 0, 0, 1, 0, 3, 0, 0, 2, 0, 3, 0, 3, 1, 3].map (.thread 1, ·) ++
    [1, 0, 3, 0, 0, 0, 0, 3, 0, 3, 1, 3].map (.thread 0, ·)

/-- They apply the three orders and leave their loops. -/
theorem lateReader_suffices :
    ∃ s, run (OrderedBroadcastRun.step BroadcastRun.threeOrders 2) start lateReader = some s ∧
      ∑ t ∈ Finset.range 2, s.accesses.pipeline.threadMessageCounts t = 3 := by
  have hends : (run (OrderedBroadcastRun.step BroadcastRun.threeOrders 2) start lateReader).any
      (fun s => (∀ t < 2, (s.accesses.pipeline.threads t).pc = .exited) ∧
        s.accesses.copied = 3) = true := by decide +kernel
  obtain ⟨s, hrun, hs⟩ := (Option.any_eq_true _ _).mp hends
  obtain ⟨hpc, hcopied⟩ := of_decide_eq_true hs
  refine ⟨s, hrun, ((broadcast_memory_orders_suffice (by decide) hrun).delivers ?_).counts hpc⟩
  rw [hcopied]
  decide

end OrderedBroadcastRun

end NanoRing
