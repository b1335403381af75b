import NanoRing.Pipeline.OrderedBroadcast

/-!
# What the threads of the broadcast pipeline know

The producer publishes how many orders it has copied, and the flag tells of all of them. As long as no
slot of the journal is taken again, what the book threads do with old indices and old flags refines
the pipeline in which all loads are of the last stores.
-/

namespace NanoRing

open MemoryOrder Schedule

/-! ## What the producer publishes -/

/-- The producer publishes how many orders it has copied, and whoever has seen the flag knows of all of
them. No report has stored more than the minimum. -/
structure JournalMemory (m : BroadcastMemory) (next copied : ℕ) (done : Bool) (minimum : ℕ) :
    Prop where
  publishes : Publishes m .producer .published .copied (fun j => j % 2 ^ journalExponent) id next
    copied
  flag : Counts m .producer .done id done.toNat
  told : m.Everywhere (Tells .done .published next)
  reports : ∀ i ≤ m.now .minSeq, (m.stores .minSeq i).value ≤ minimum

namespace JournalMemory

variable {m : BroadcastMemory} {next copied minimum t i v : ℕ} {done : Bool} {p : BroadcastPlace}

theorem start : JournalMemory (.start fun _ => 0) 0 0 false 0 where
  publishes := start_publishes rfl
  flag := start_counts rfl
  told := (Memory.start_past _).tells rfl
  reports := fun _ _ => le_rfl

theorem acquire (h : JournalMemory m next copied done minimum) :
    JournalMemory (m.acquire (.book t) p i) next copied done minimum where
  publishes := h.publishes.acquire
  flag := h.flag.acquire
  told := h.told.acquire (supClosed_tells _ _ _)
  reports := h.reports

theorem observe (h : JournalMemory m next copied done minimum)
    (hload : m.mayLoad (.book t) .minSeq i) :
    JournalMemory (m.observe (.book t) .minSeq i) next copied done minimum where
  publishes := h.publishes.observe hload (by decide)
  flag := h.flag.observe hload
  told := h.told.tells_observe hload (by decide)
  reports := h.reports

theorem read (h : JournalMemory m next copied done minimum) (hpast : m.Past) (slot : ℕ) :
    JournalMemory (m.event (.book t) (.read t slot)) next copied done minimum where
  publishes := h.publishes.event_of_ne hpast (fun heq => by cases heq) fun _ heq => by cases heq
  flag := h.flag.event_of_ne fun heq => by cases heq
  told := h.told.tells_event hpast fun heq => by cases heq
  reports := fun i hi =>
    h.reports i (hi.trans_eq (Memory.event_now_of_ne fun heq => by cases heq))

/-- A report raises the minimum. -/
theorem report (h : JournalMemory m next copied done minimum) (hpast : m.Past) (hgt : minimum < v) :
    JournalMemory (m.storeRelease (.book t) .minSeq v) next copied done v where
  publishes := h.publishes.storeRelease_of_ne hpast (by decide) fun _ heq => by cases heq
  flag := h.flag.storeRelease_of_ne (by decide)
  told := (h.told.tells_event hpast (by decide)).storeRelease
  reports := Memory.stored_le_storeRelease h.reports hgt.le le_rfl

theorem copyItem (h : JournalMemory m next next done minimum) (hpast : m.Past) :
    JournalMemory (m.event .producer (.copied (next % 2 ^ journalExponent))) next (next + 1) done
      minimum where
  publishes := h.publishes.access_next hpast (fun _ _ => BroadcastPlace.copied.inj)
    fun _ heq => by cases heq
  flag := h.flag.event_of_ne fun heq => by cases heq
  told := h.told.tells_event hpast fun heq => by cases heq
  reports := fun i hi =>
    h.reports i (hi.trans_eq (Memory.event_now_of_ne fun heq => by cases heq))

/-- A publish before the flag is stored. -/
theorem storePublished (h : JournalMemory m next (next + 1) false minimum) (hpast : m.Past) :
    JournalMemory (m.storeRelease .producer .published (next + 1)) (next + 1) (next + 1) false
      minimum where
  publishes := h.publishes.store_next (fun _ heq => by cases heq) le_rfl rfl
  flag := h.flag.storeRelease_of_ne (by decide)
  told := hpast.storeRelease.tells
    ((Memory.storeRelease_now_of_ne (by decide)).trans h.flag.index_now)
  reports := Memory.stored_le_of_ne h.reports (by decide)

/-- When it stores the flag, the producer knows of all its publishes. -/
theorem setDone (h : JournalMemory m next copied false minimum) (hpast : m.Past) :
    JournalMemory (m.storeRelease .producer .done 1) next copied true minimum where
  publishes := h.publishes.storeRelease_of_ne hpast (by decide) fun _ heq => by cases heq
  flag := h.flag.store_next rfl
  told := h.told.tells_raise (by decide) (h.publishes.index_now.symm.trans_le h.publishes.own_index)
  reports := Memory.stored_le_of_ne h.reports (by decide)

end JournalMemory

namespace BroadcastAccessRun

variable {orders : List DecodedOrder} {numThreads : ℕ} {s : BroadcastAccessRun} {c : BroadcastRun}
  {t : ℕ}

theorem Refines.threads_eq (h : Refines orders numThreads s c) :
    s.pipeline.threads = c.threads := by
  rw [h.memory, BroadcastRun.written_threads]

theorem Refines.producerDone_eq (h : Refines orders numThreads s c) :
    s.pipeline.producerDone = c.producerDone := by
  rw [h.memory, BroadcastRun.written_producerDone]

theorem Refines.nextOrder_eq (h : Refines orders numThreads s c) :
    s.pipeline.nextOrder = c.nextOrder := by
  rw [h.memory]
  cases s.publish with
  | copyItem | storePublished => rfl

/-- A thread may look at the index and at the flag again at any time. -/
theorem Refines.goTo (h : Refines orders numThreads s c) (ht : t < numThreads) {pc : BookThreadPc}
    (hdraining : ∀ published, pc = .draining published → published ≤ s.pipeline.nextOrder)
    (hdone : pc = .reloadPublished → s.pipeline.producerDone = true) (hexited : pc ≠ .exited) :
    Refines orders numThreads (s.goTo t pc) (c.setThread t { c.threads t with pc := pc }) := by
  rw [h.nextOrder_eq] at hdraining
  rw [h.producerDone_eq] at hdone
  have hpaced : BroadcastRun.Paced orders numThreads
      (c.setThread t { c.threads t with pc := pc }) :=
    h.inv.paced.setPc ht ⟨hdraining, hdone, fun hpc => absurd hpc hexited⟩
  have hthreads : ∀ t' ≠ t, (c.setThread t { c.threads t with pc := pc }).threads t' = c.threads t' :=
    fun t' hne => BroadcastRun.setThread_of_ne hne _
  refine ⟨hpaced.inv fun t' ht' => ?_, ?_, ?_, ?_⟩
  · by_cases hne : t' = t
    · subst hne
      rw [BroadcastRun.setThread_self]
      exact ((h.inv.reads t' ht').setPc pc).congr rfl rfl
    · rw [hthreads t' hne]
      exact (h.inv.reads t' ht').congr rfl rfl
  · rw [BroadcastAccessRun.goTo, h.threads_eq, h.memory, BroadcastRun.written_setThread]
    rfl
  · have hsound := h.publish
    change (c.setThread t _).PublishSound orders numThreads s.publish
    cases hpublish : s.publish with
    | copyItem => trivial
    | storePublished =>
      rw [hpublish] at hsound
      refine ⟨hsound.1, fun t' ht' => (hsound.2 t' ht').trans_eq (congrArg (· + _) ?_)⟩
      by_cases hne : t' = t
      · rw [hne, BroadcastRun.setThread_self]
      · rw [hthreads t' hne]
  · exact (Function.forall_update_iff s.read (p := fun t' read => t' < numThreads →
      BroadcastRun.ReadSound numThreads _ t' read)).mpr ⟨fun _ => trivial, fun t' hne ht' =>
        (h.read t' ht').mono (hthreads t' hne) (fun _ _ _ => congrArg
          (fun thread : BookThread => c.journal.getPayload journalExponent thread.localSeq)
          (hthreads t' hne)) le_rfl⟩

end BroadcastAccessRun

namespace OrderedBroadcastRun

variable {orders : List DecodedOrder} {numThreads : ℕ} {s s' : OrderedBroadcastRun} {t i : ℕ}

/-! ### The invariant -/

/-- What holds as long as no slot is taken again. A thread knows of the copies of all orders that it
is about to read, and has read no slot above them. -/
structure Inv (orders : List DecodedOrder) (numThreads : ℕ) (s : OrderedBroadcastRun) : Prop where
  refines : ∃ c, BroadcastAccessRun.Refines orders numThreads s.accesses c
  journal : JournalMemory s.memory s.accesses.pipeline.nextOrder s.accesses.copied
    s.accesses.pipeline.producerDone s.accesses.pipeline.journal.minConsumerSeq
  draining : ∀ t < numThreads, ∀ published,
    (s.accesses.pipeline.threads t).pc = .draining published →
      published ≤ s.memory.seen (.book t) .published
  ended : ∀ t < numThreads, (s.accesses.pipeline.threads t).pc = .reloadPublished →
    1 ≤ s.memory.seen (.book t) .done
  fresh : ∀ t < numThreads, ∀ slot, s.accesses.pipeline.nextOrder ≤ slot →
    s.memory.now (.read t slot) = 0

theorem start_inv (orders : List DecodedOrder) (numThreads : ℕ) : Inv orders numThreads start where
  refines := ⟨_, BroadcastAccessRun.start_refines orders numThreads⟩
  journal := JournalMemory.start
  draining := fun _ _ _ hpc => by cases hpc
  ended := fun _ _ hpc => by cases hpc
  fresh := fun _ _ _ _ => rfl

/-- An access of the producer leaves alone what the threads have found. -/
theorem Inv.moveProducer (h : Inv orders numThreads s) {a : BroadcastAccessRun} {m : BroadcastMemory}
    (hrefines : ∃ c, BroadcastAccessRun.Refines orders numThreads a c)
    (hthreads : a.pipeline.threads = s.accesses.pipeline.threads)
    (hnext : s.accesses.pipeline.nextOrder ≤ a.pipeline.nextOrder)
    (hjournal : JournalMemory m a.pipeline.nextOrder a.copied a.pipeline.producerDone
      a.pipeline.journal.minConsumerSeq)
    (hseen : ∀ thread p, s.memory.seen thread p ≤ m.seen thread p)
    (hnow : ∀ t slot, m.now (.read t slot) = s.memory.now (.read t slot)) :
    Inv orders numThreads ⟨a, m⟩ where
  refines := hrefines
  journal := hjournal
  draining := fun t ht published hpc => by
    rw [hthreads] at hpc
    exact (h.draining t ht published hpc).trans (hseen _ _)
  ended := fun t ht hpc => by
    rw [hthreads] at hpc
    exact (h.ended t ht hpc).trans (hseen _ _)
  fresh := fun t ht slot hslot => (hnow t slot).trans (h.fresh t ht slot (hnext.trans hslot))

/-- An access of a book thread leaves alone what the others have found. -/
theorem Inv.moveThread (h : Inv orders numThreads s) {a : BroadcastAccessRun} {m : BroadcastMemory}
    (hrefines : ∃ c, BroadcastAccessRun.Refines orders numThreads a c)
    (hnext : a.pipeline.nextOrder = s.accesses.pipeline.nextOrder)
    (hjournal : JournalMemory m a.pipeline.nextOrder a.copied a.pipeline.producerDone
      a.pipeline.journal.minConsumerSeq)
    (hother : ∀ t' ≠ t, a.pipeline.threads t' = s.accesses.pipeline.threads t')
    (hseen : ∀ thread p, s.memory.seen thread p ≤ m.seen thread p)
    (hdraining : ∀ published, (a.pipeline.threads t).pc = .draining published →
      published ≤ m.seen (.book t) .published)
    (hended : (a.pipeline.threads t).pc = .reloadPublished → 1 ≤ m.seen (.book t) .done)
    (hfresh : ∀ t' < numThreads, ∀ slot, s.accesses.pipeline.nextOrder ≤ slot →
      m.now (.read t' slot) = 0) : Inv orders numThreads ⟨a, m⟩ where
  refines := hrefines
  journal := hjournal
  draining := fun t' ht' published hpc => by
    by_cases ht : t' = t
    · subst ht
      exact hdraining published hpc
    · rw [hother t' ht] at hpc
      exact (h.draining t' ht' published hpc).trans (hseen _ _)
  ended := fun t' ht' hpc => by
    by_cases ht : t' = t
    · subst ht
      exact hended hpc
    · rw [hother t' ht] at hpc
      exact (h.ended t' ht' hpc).trans (hseen _ _)
  fresh := fun t' ht' slot hslot => hfresh t' ht' slot (hnext.symm.trans_le hslot)

/-! ### Accesses of a book thread -/

theorem Inv.refines_thread (h : Inv orders numThreads s) (ht : t < numThreads)
    {a : BroadcastAccessRun} (hstep : s.accesses.threadStep numThreads t = some a) :
    ∃ c, BroadcastAccessRun.Refines orders numThreads a c := by
  obtain ⟨c, hrefines⟩ := h.refines
  obtain hsame | ⟨c', -, hmoved⟩ := hrefines.threadStep ht hstep
  · exact ⟨c, hsame⟩
  · exact ⟨c', hmoved⟩

/-- A thread goes on in its loop. -/
theorem Inv.goTo (h : Inv orders numThreads s) (ht : t < numThreads) {pc : BookThreadPc}
    {m : BroadcastMemory}
    (hdraining : ∀ published, pc = .draining published →
      published ≤ s.accesses.pipeline.nextOrder ∧ published ≤ m.seen (.book t) .published)
    (hended : pc = .reloadPublished →
      s.accesses.pipeline.producerDone = true ∧ 1 ≤ m.seen (.book t) .done)
    (hexited : pc ≠ .exited)
    (hmemory : m = s.memory ∨ ∃ p i, m = s.memory.acquire (.book t) p i) :
    Inv orders numThreads ⟨s.accesses.goTo t pc, m⟩ := by
  have hrefines : ∃ c, BroadcastAccessRun.Refines orders numThreads (s.accesses.goTo t pc) c := by
    obtain ⟨c, hrefines⟩ := h.refines
    exact ⟨_, hrefines.goTo ht (fun published hpc => (hdraining published hpc).1)
      (fun hpc => (hended hpc).1) hexited⟩
  have hother : ∀ t' ≠ t, (s.accesses.goTo t pc).pipeline.threads t' =
      s.accesses.pipeline.threads t' := fun t' hne => BroadcastRun.setThread_of_ne hne _
  have hself : ((s.accesses.goTo t pc).pipeline.threads t).pc = pc :=
    s.accesses.pipeline.setThread_pc t _
  have hdraining' : ∀ published, ((s.accesses.goTo t pc).pipeline.threads t).pc =
      .draining published → published ≤ m.seen (.book t) .published :=
    fun published hpc => (hdraining published (hself.symm.trans hpc)).2
  have hended' := fun hpc => (hended (hself.symm.trans hpc)).2
  obtain rfl | ⟨p, i, rfl⟩ := hmemory
  · exact h.moveThread hrefines rfl h.journal hother (fun _ _ => le_rfl) hdraining' hended' h.fresh
  · exact h.moveThread hrefines rfl h.journal.acquire hother
      (fun thread => s.memory.seen_le_acquire _ _ _ thread) hdraining' hended' h.fresh

theorem Inv.published_of_reading (h : Inv orders numThreads s) (ht : t < numThreads)
    (hreading : s.accesses.Reading t) :
    ∃ published, (s.accesses.pipeline.threads t).pc = .draining published ∧
      (s.accesses.pipeline.threads t).localSeq < published := by
  obtain ⟨c, hrefines⟩ := h.refines
  have hsound := hrefines.read t ht
  unfold BroadcastAccessRun.Reading at hreading
  cases hread : s.accesses.read t with
  | outside =>
    rw [hread] at hreading
    exact hreading
  | apply =>
    rw [hread] at hsound
    rw [hrefines.threads_eq]
    exact hsound.1
  | exchange currentMin =>
    rw [hread] at hreading
    exact hreading.elim

/-- The index that a thread has loaded is of orders that are published. -/
theorem Inv.published_le (h : Inv orders numThreads s) (ht : t < numThreads) {published : ℕ}
    (hpc : (s.accesses.pipeline.threads t).pc = .draining published) :
    published ≤ s.accesses.pipeline.nextOrder := by
  obtain ⟨c, hrefines⟩ := h.refines
  rw [hrefines.threads_eq] at hpc
  rw [hrefines.nextOrder_eq]
  exact (hrefines.inv.knows t ht).draining_le published hpc

/-- A thread reads a slot of an order that is published. -/
theorem Inv.read (h : Inv orders numThreads s) (hpast : s.memory.Past) (ht : t < numThreads)
    {a : BroadcastAccessRun}
    (hreading : s.accesses.Reading t) (hstep : s.accesses.threadStep numThreads t = some a)
    (hnext : a.pipeline.nextOrder = s.accesses.pipeline.nextOrder)
    (hpublish : a.publish = s.accesses.publish)
    (hdone : a.pipeline.producerDone = s.accesses.pipeline.producerDone)
    (hmin : a.pipeline.journal.minConsumerSeq = s.accesses.pipeline.journal.minConsumerSeq)
    (hother : ∀ t' ≠ t, a.pipeline.threads t' = s.accesses.pipeline.threads t')
    (hpc : (a.pipeline.threads t).pc = (s.accesses.pipeline.threads t).pc) :
    Inv orders numThreads ⟨a, s.memory.event (.book t) (.read t
      (BroadcastJournal.slotOf journalExponent (s.accesses.pipeline.threads t).localSeq))⟩ := by
  obtain ⟨published, hdraining, hlt⟩ := h.published_of_reading ht hreading
  have hseen := hlt.trans_le (h.published_le ht hdraining)
  have hslot : BroadcastJournal.slotOf journalExponent (s.accesses.pipeline.threads t).localSeq <
      s.accesses.pipeline.nextOrder := by
    rw [BroadcastJournal.slotOf_eq]
    exact (Nat.mod_le _ _).trans_lt hseen
  have hcopied' : a.copied = s.accesses.copied := by
    rw [BroadcastAccessRun.copied, BroadcastAccessRun.copied, hpublish, hnext]
  refine h.moveThread (h.refines_thread ht hstep) hnext ?_ hother
    (fun thread p => hpast.seen_le_event thread p) (fun published' hpc' => ?_) (fun hpc' => ?_)
    fun t' ht' slot hle => ?_
  · rw [hnext, hcopied', hdone, hmin]
    exact h.journal.read hpast _
  · rw [hpc] at hpc'
    exact (h.draining t ht published' hpc').trans (hpast.seen_le_event _ _)
  · rw [hpc] at hpc'
    exact (h.ended t ht hpc').trans (hpast.seen_le_event _ _)
  · have hne : BroadcastPlace.read t' slot ≠ .read t
        (BroadcastJournal.slotOf journalExponent (s.accesses.pipeline.threads t).localSeq) :=
      fun heq => (hslot.trans_le hle).ne' (BroadcastPlace.read.inj heq).2
    rw [Memory.event_now_of_ne hne]
    exact h.fresh t' ht' slot hle

/-- A relaxed load of the minimum, old or new, is below it. -/
theorem Inv.asked (h : Inv orders numThreads s) (ht : t < numThreads)
    {currentMin : ℕ} {m : BroadcastMemory}
    (hreport : s.accesses.read t = .outside ∧ (s.accesses.pipeline.threads t).pc = .report ∨
      ∃ oldMin, s.accesses.read t = .exchange oldMin)
    (hload : s.memory.loadRelaxed (.book t) .minSeq i = some (currentMin, m)) :
    Inv orders numThreads ⟨s.accesses.setRead t (.exchange currentMin), m⟩ := by
  obtain ⟨hmay, rfl, rfl⟩ := Memory.loadRelaxed_eq_some hload
  obtain ⟨c, hrefines⟩ := h.refines
  have hpc : (c.threads t).pc = .report := by
    obtain ⟨-, hpc⟩ | ⟨oldMin, hread⟩ := hreport
    · rw [← hrefines.threads_eq]
      exact hpc
    · have hsound := hrefines.read t ht
      rw [hread] at hsound
      exact hsound.1
  have hmin : s.accesses.pipeline.journal.minConsumerSeq = c.journal.minConsumerSeq := by
    rw [hrefines.memory]
    exact (c.written_journal orders s.accesses.publish).2
  have hle := (h.journal.reports i (Memory.mayLoad_iff.mp hmay).2).trans_eq hmin
  exact h.moveThread ⟨c, hrefines.setRead ⟨hpc, hle⟩⟩ rfl (h.journal.observe hmay)
    (fun _ _ => rfl) (fun thread => Memory.seen_le_observe hmay thread)
    (fun published hdraining => (h.draining t ht published hdraining).trans
      (Memory.seen_le_observe hmay _ _))
    (fun hended => (h.ended t ht hended).trans (Memory.seen_le_observe hmay _ _)) h.fresh

/-- A thread that has seen the flag leaves when it has read all orders. -/
theorem Inv.left (h : Inv orders numThreads s) (ht : t < numThreads) {published : ℕ}
    {m : BroadcastMemory} (hread : s.accesses.read t = .outside)
    (hpc : (s.accesses.pipeline.threads t).pc = .reloadPublished)
    (hload : s.memory.loadAcquire (.book t) .published i = some (published, m))
    (hall : (s.accesses.pipeline.threads t).localSeq ≥ published) :
    Inv orders numThreads
      ⟨{ s.accesses with
          pipeline := { s.accesses.pipeline.setThread t
              { s.accesses.pipeline.threads t with pc := .exited } with
            threadMessageCounts := Function.update s.accesses.pipeline.threadMessageCounts t
              (s.accesses.pipeline.threads t).localCount } }, m⟩ := by
  obtain ⟨rfl, rfl⟩ := h.journal.publishes.loadAcquire_told h.journal.told (h.ended t ht hpc) hload
  obtain ⟨c, hrefines⟩ := h.refines
  have hindex : s.accesses.pipeline.journal.getPublishedIndex = s.accesses.pipeline.nextOrder := by
    rw [hrefines.nextOrder_eq, ← hrefines.inv.published_eq, hrefines.memory]
    exact (c.written_journal orders s.accesses.publish).1
  have hstep : s.accesses.threadStep numThreads t = some { s.accesses with
      pipeline := { s.accesses.pipeline.setThread t
          { s.accesses.pipeline.threads t with pc := .exited } with
        threadMessageCounts := Function.update s.accesses.pipeline.threadMessageCounts t
          (s.accesses.pipeline.threads t).localCount } } := by
    have hmove : s.accesses.pipeline.threadStep numThreads t = some
        { s.accesses.pipeline.setThread t { s.accesses.pipeline.threads t with pc := .exited } with
          threadMessageCounts := Function.update s.accesses.pipeline.threadMessageCounts t
            (s.accesses.pipeline.threads t).localCount } := by
      unfold BroadcastRun.threadStep
      dsimp only
      rw [hpc, hindex]
      exact if_pos hall
    unfold BroadcastAccessRun.threadStep
    dsimp only
    rw [hread, hpc]
    exact congrArg (Option.map _) hmove
  have hself := s.accesses.pipeline.setThread_pc t { s.accesses.pipeline.threads t with pc := .exited }
  refine h.moveThread (h.refines_thread ht hstep) rfl h.journal.acquire
    (fun t' hne => BroadcastRun.setThread_of_ne hne _)
    (fun thread => s.memory.seen_le_acquire _ _ _ thread) (fun published hdraining => ?_)
    (fun hended => ?_) h.fresh
  · cases hself.symm.trans hdraining
  · cases hself.symm.trans hended

/-- A report that succeeds acts on the last minimum. -/
theorem Inv.reported (h : Inv orders numThreads s) (hpast : s.memory.Past) (ht : t < numThreads)
    {currentMin : ℕ} (hread : s.accesses.read t = .exchange currentMin)
    (hgt : (s.accesses.pipeline.threads t).localSeq > currentMin)
    (hmin : s.accesses.pipeline.journal.minConsumerSeq = currentMin) :
    Inv orders numThreads
      ⟨{ s.accesses.setRead t .outside with
          pipeline :=
            { s.accesses.pipeline.setThread t
                { s.accesses.pipeline.threads t with pc := .loadPublished } with
              journal := { s.accesses.pipeline.journal with
                minConsumerSeq := (s.accesses.pipeline.threads t).localSeq } } },
        s.memory.storeRelease (.book t) .minSeq (s.accesses.pipeline.threads t).localSeq⟩ := by
  have hstep : s.accesses.threadStep numThreads t = some { s.accesses.setRead t .outside with
      pipeline :=
        { s.accesses.pipeline.setThread t
            { s.accesses.pipeline.threads t with pc := .loadPublished } with
          journal := { s.accesses.pipeline.journal with
            minConsumerSeq := (s.accesses.pipeline.threads t).localSeq } } } := by
    simp only [BroadcastAccessRun.threadStep, hread, if_pos hgt, if_pos hmin]
  have hself := s.accesses.pipeline.setThread_pc t
    { s.accesses.pipeline.threads t with pc := .loadPublished }
  refine h.moveThread (h.refines_thread ht hstep) rfl (h.journal.report hpast (hmin ▸ hgt))
    (fun t' hne => BroadcastRun.setThread_of_ne hne _)
    (fun thread p => hpast.seen_le_storeRelease thread p) (fun published hdraining => ?_)
    (fun hended => ?_) fun t' ht' slot hle => ?_
  · cases hself.symm.trans hdraining
  · cases hself.symm.trans hended
  · rw [Memory.storeRelease_now_of_ne fun heq => by cases heq]
    exact h.fresh t' ht' slot hle

theorem Inv.threadMoves (h : Inv orders numThreads s) (hpast : s.memory.Past) (ht : t < numThreads)
    (hmoves : ThreadMoves numThreads s t s') : Inv orders numThreads s' := by
  cases hmoves with
  | loaded hread hpc hload =>
    obtain ⟨rfl, hle, hseen, rfl⟩ := h.journal.publishes.loadAcquire hload
    refine h.goTo ht (fun published hdraining => ?_) (fun hended => ?_) ?_ (.inr ⟨_, _, rfl⟩)
    · split at hdraining
      · cases hdraining
      · obtain rfl := BookThreadPc.draining.inj hdraining
        exact ⟨hle, hseen.ge⟩
    · split at hended <;> cases hended
    · split <;> intro heq <;> cases heq
  | tested hread hpc hload =>
    obtain ⟨rfl, hle, hseen, rfl⟩ := h.journal.flag.loadAcquire hload
    refine h.goTo ht (fun published hdraining => ?_) (fun hended => ?_) ?_ (.inr ⟨_, _, rfl⟩)
    · split at hdraining <;> cases hdraining
    · split at hended
      · cases hended
      · rename_i hraised
        have hpos := Nat.one_le_iff_ne_zero.mpr hraised
        exact ⟨Bool.toNat_eq_one.mp (le_antisymm (Bool.toNat_le _) (hpos.trans hle)),
          hpos.trans_eq hseen.symm⟩
    · split <;> intro heq <;> cases heq
  | left hread hpc hload hall => exact h.left ht hread hpc hload hall
  | again hread hpc hload =>
    obtain ⟨-, -, rfl⟩ := Memory.loadAcquire_eq_some hload
    exact h.goTo ht (fun _ heq => by cases heq) (fun heq => by cases heq) (fun heq => by cases heq)
      (.inr ⟨_, _, rfl⟩)
  | drained | outrun =>
    exact h.goTo ht (fun _ heq => by cases heq) (fun heq => by cases heq) (fun heq => by cases heq)
      (.inl rfl)
  | @matched published hread hpc hlt howned =>
    refine h.read hpast ht ?_ ?_ rfl rfl rfl rfl (fun _ _ => rfl) rfl
    · rw [BroadcastAccessRun.Reading, hread]
      exact ⟨published, hpc, hlt⟩
    · unfold BroadcastAccessRun.threadStep
      dsimp only
      rw [hread, hpc]
      exact (if_pos hlt).trans (if_pos howned)
  | @skimmed published hread hpc hlt hother =>
    refine h.read hpast ht ?_ ?_ rfl rfl rfl rfl (fun t' hne => BroadcastRun.setThread_of_ne hne _) ?_
    · rw [BroadcastAccessRun.Reading, hread]
      exact ⟨published, hpc, hlt⟩
    · unfold BroadcastAccessRun.threadStep
      dsimp only
      rw [hread, hpc]
      exact (if_pos hlt).trans (if_neg hother)
    · exact s.accesses.pipeline.setThread_pc t _
  | applied hread =>
    refine h.read hpast ht ?_ ?_ rfl rfl rfl rfl (fun t' hne => BroadcastRun.setThread_of_ne hne _) ?_
    · rw [BroadcastAccessRun.Reading, hread]
      trivial
    · simp only [BroadcastAccessRun.threadStep, hread]
      rfl
    · exact s.accesses.pipeline.setThread_pc t _
  | asked hreport hload => exact h.asked ht hreport hload
  | reported hread hgt hmin => exact h.reported hpast ht hread hgt hmin

end OrderedBroadcastRun

end NanoRing
