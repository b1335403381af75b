import NanoRing.Common.Publication
import NanoRing.Pipeline.BroadcastAccesses

/-!
# Accesses of the broadcast pipeline that may be out of date

The producer stores the published index and the flag with release, and the book threads load both
with acquire. What the threads report in `min_consumer_seq_` they load relaxed. Here is the pipeline
with these loads, any of which may return an old store, and what one access of a thread can do.
-/

namespace NanoRing

open MemoryOrder Schedule

/-- The two indices, the flag, which is stored as a 1, the copies into each slot, and the reads of
it by each book thread. -/
inductive BroadcastPlace
  | published
  | minSeq
  | done
  | copied (slot : ℕ)
  | read (t slot : ℕ)
deriving DecidableEq

abbrev BroadcastMemory : Type := Memory PipelineThread BroadcastPlace ℕ

/-- The pipeline with what has been stored last, and what each thread has seen of it. -/
structure OrderedBroadcastRun where
  accesses : BroadcastAccessRun
  memory : BroadcastMemory

namespace BroadcastAccessRun

/-- The state with one book thread outside its calls, at another place in its loop. -/
def goTo (s : BroadcastAccessRun) (t : ℕ) (pc : BookThreadPc) : BroadcastAccessRun :=
  { s.setRead t .outside with
    pipeline := s.pipeline.setThread t { s.pipeline.threads t with pc := pc } }

/-- How many orders are copied into their slots. -/
def copied (s : BroadcastAccessRun) : ℕ :=
  match s.publish with
  | .copyItem => s.pipeline.nextOrder
  | .storePublished => s.pipeline.nextOrder + 1

/-- A book thread reads a slot in its next access. -/
def Reading (s : BroadcastAccessRun) (t : ℕ) : Prop :=
  match s.read t with
  | .outside => ∃ published, (s.pipeline.threads t).pc = .draining published ∧
      (s.pipeline.threads t).localSeq < published
  | .apply => True
  | .exchange _ => False

end BroadcastAccessRun

namespace OrderedBroadcastRun

def start : OrderedBroadcastRun where
  accesses := .start
  memory := .start fun _ => 0

/-- The next access of the producer in `publish`. -/
def publishStep (orders : List DecodedOrder) (s : OrderedBroadcastRun) :
    Option OrderedBroadcastRun :=
  (s.accesses.publishStep orders).map fun accesses =>
    ⟨accesses,
      match s.accesses.publish with
      | .copyItem => s.memory.event .producer
          (.copied (BroadcastJournal.slotOf journalExponent s.accesses.pipeline.nextOrder))
      | .storePublished =>
        s.memory.storeRelease .producer .published (s.accesses.pipeline.nextOrder + 1)⟩

/-- The store of the flag, after the last publish. -/
def setDone (orders : List DecodedOrder) (s : OrderedBroadcastRun) : Option OrderedBroadcastRun :=
  (s.accesses.setDone orders).map fun accesses =>
    ⟨accesses, s.memory.storeRelease .producer .done 1⟩

/-- A relaxed load of the minimum in `report_consumer_progress`, which may be of an old store `i`. -/
def loadMinimum (s : OrderedBroadcastRun) (t i : ℕ) : Option OrderedBroadcastRun :=
  (s.memory.loadRelaxed (.book t) .minSeq i).map fun (currentMin, memory) =>
    ⟨s.accesses.setRead t (.exchange currentMin), memory⟩

/-- The next access of book thread `t`, which may load a store `i`. A compare-exchange that
succeeds acts on the last store. -/
def threadStep (numThreads : ℕ) (s : OrderedBroadcastRun) (t i : ℕ) : Option OrderedBroadcastRun :=
  let thread := s.accesses.pipeline.threads t
  let slot := BroadcastJournal.slotOf journalExponent thread.localSeq
  let order := s.accesses.pipeline.journal.getPayload journalExponent thread.localSeq
  match s.accesses.read t with
  | .outside =>
    match thread.pc with
    | .loadPublished =>
      (s.memory.loadAcquire (.book t) .published i).map fun (published, memory) =>
        ⟨s.accesses.goTo t (if thread.localSeq ≥ published then .testDone else .draining published),
          memory⟩
    | .testDone =>
      (s.memory.loadAcquire (.book t) .done i).map fun (done, memory) =>
        ⟨s.accesses.goTo t (if done = 0 then .loadPublished else .reloadPublished), memory⟩
    | .reloadPublished =>
      (s.memory.loadAcquire (.book t) .published i).map fun (published, memory) =>
        if thread.localSeq ≥ published then
          ⟨{ s.accesses with
              pipeline := { s.accesses.pipeline.setThread t { thread with pc := .exited } with
                threadMessageCounts :=
                  Function.update s.accesses.pipeline.threadMessageCounts t thread.localCount } },
            memory⟩
        else ⟨s.accesses.goTo t .loadPublished, memory⟩
    | .draining published =>
      if thread.localSeq < published then
        some ⟨
          if getShard numThreads order.tickerKey = t then s.accesses.setRead t .apply
          else
            { s.accesses with
              pipeline := s.accesses.pipeline.setThread t
                { thread with localSeq := thread.localSeq + 1, seen := thread.seen ++ [order] } },
          s.memory.event (.book t) (.read t slot)⟩
      else some ⟨s.accesses.goTo t .report, s.memory⟩
    | .report => s.loadMinimum t i
    | .exited => none
  | .apply =>
    some ⟨{ s.accesses.setRead t .outside with
        pipeline := s.accesses.pipeline.setThread t
          { thread with
            localSeq := thread.localSeq + 1
            localCount := thread.localCount + 1
            manager := thread.manager.apply order
            seen := thread.seen ++ [order] } },
      s.memory.event (.book t) (.read t slot)⟩
  | .exchange currentMin =>
    if thread.localSeq > currentMin then
      if s.accesses.pipeline.journal.minConsumerSeq = currentMin then
        some ⟨{ s.accesses.setRead t .outside with
            pipeline :=
              { s.accesses.pipeline.setThread t { thread with pc := .loadPublished } with
                journal :=
                  { s.accesses.pipeline.journal with minConsumerSeq := thread.localSeq } } },
          s.memory.storeRelease (.book t) .minSeq thread.localSeq⟩
      else s.loadMinimum t i
    else some ⟨s.accesses.goTo t .loadPublished, s.memory⟩

/-- A compare-exchange that fails for no reason loads the minimum again. -/
def spuriousStep (s : OrderedBroadcastRun) (t i : ℕ) : Option OrderedBroadcastRun :=
  match s.accesses.read t with
  | .exchange currentMin =>
    if (s.accesses.pipeline.threads t).localSeq > currentMin then s.loadMinimum t i else none
  | _ => none

/-- One access of the pipeline, and the store that it loads if it loads one. -/
def step (orders : List DecodedOrder) (numThreads : ℕ) (s : OrderedBroadcastRun) :
    BroadcastAccess × ℕ → Option OrderedBroadcastRun
  | (.publish, _) => s.publishStep orders
  | (.setDone, _) => s.setDone orders
  | (.thread t, i) => if t < numThreads then s.threadStep numThreads t i else none
  | (.spurious t, i) => if t < numThreads then s.spuriousStep t i else none

/-- The copy of the next order into its slot does not lap a book thread, and it happens after all
reads of the slot by that thread. -/
structure CopySafe (s : OrderedBroadcastRun) (t : ℕ) : Prop where
  keepsUp : s.accesses.pipeline.nextOrder <
    (s.accesses.pipeline.threads t).localSeq + 2 ^ journalExponent
  after : s.memory.Knows .producer
    (.read t (BroadcastJournal.slotOf journalExponent s.accesses.pipeline.nextOrder))

/-- As long as no slot is taken again, the orders are delivered, and each read of a slot happens
after all copies into it. A copy is safe exactly when it does not take a slot again. -/
structure Suffices (orders : List DecodedOrder) (numThreads : ℕ) (s : OrderedBroadcastRun) :
    Prop where
  delivers : s.accesses.copied ≤ 2 ^ journalExponent →
    s.accesses.pipeline.Delivers orders numThreads
  read : s.accesses.copied ≤ 2 ^ journalExponent → ∀ t < numThreads, s.accesses.Reading t →
    s.memory.Knows (.book t) (.copied
      (BroadcastJournal.slotOf journalExponent (s.accesses.pipeline.threads t).localSeq))
  copy_iff : s.accesses.publish = .copyItem → ∀ t < numThreads,
    (CopySafe s t ↔ s.accesses.pipeline.nextOrder < 2 ^ journalExponent)

end OrderedBroadcastRun

/-! ## What a book thread does -/

theorem BroadcastRun.setThread_pc (s : BroadcastRun) (t : ℕ) (thread : BookThread) :
    ((s.setThread t thread).threads t).pc = thread.pc :=
  congrArg BookThread.pc (s.setThread_self t thread)

namespace BroadcastAccessRun

variable {s : BroadcastAccessRun} {t t' : ℕ}

theorem goTo_localSeq (s : BroadcastAccessRun) (t : ℕ) (pc : BookThreadPc) (t' : ℕ) :
    ((s.goTo t pc).pipeline.threads t').localSeq = (s.pipeline.threads t').localSeq := by
  have hall := (Function.forall_update_iff s.pipeline.threads (p := fun t' thread =>
    thread.localSeq = (s.pipeline.threads t').localSeq)).mpr
      ⟨(rfl : { s.pipeline.threads t with pc := pc }.localSeq = _), fun _ _ => rfl⟩
  exact hall t'

/-- The producer leaves the book threads as they are. -/
theorem publishStep_threads {orders : List DecodedOrder} {s' : BroadcastAccessRun}
    (h : s.publishStep orders = some s') : s'.pipeline.threads = s.pipeline.threads := by
  unfold publishStep at h
  split at h
  · split at h
    · exact Option.some.inj h ▸ rfl
    · contradiction
  · exact Option.some.inj h ▸ rfl

theorem setDone_eq_some {orders : List DecodedOrder} {s' : BroadcastAccessRun}
    (h : s.setDone orders = some s') : s.pipeline.producerDone = false ∧
      s' = { s with pipeline := { s.pipeline with producerDone := true } } := by
  unfold setDone at h
  split at h
  · obtain ⟨pipeline, hdone, rfl⟩ := Option.map_eq_some_iff.mp h
    obtain ⟨⟨-, hdone⟩, hset⟩ := Option.ite_none_right_eq_some.mp hdone
    exact ⟨hdone, Option.some.inj hset ▸ rfl⟩
  · contradiction

theorem copied_le_publishStep {orders : List DecodedOrder} {s' : BroadcastAccessRun}
    (h : s.publishStep orders = some s') : s.copied ≤ s'.copied := by
  unfold copied
  unfold publishStep at h
  cases hpublish : s.publish with
  | copyItem =>
    simp only [hpublish] at h
    split at h
    · exact Option.some.inj h ▸ Nat.le_succ _
    · contradiction
  | storePublished =>
    simp only [hpublish] at h
    exact Option.some.inj h ▸ le_rfl

end BroadcastAccessRun

namespace OrderedBroadcastRun

variable {orders : List DecodedOrder} {numThreads : ℕ} {s s' : OrderedBroadcastRun} {t i : ℕ}

/-- What an access of book thread `t` does, with what it has loaded. -/
inductive ThreadMoves (numThreads : ℕ) (s : OrderedBroadcastRun) (t : ℕ) :
    OrderedBroadcastRun → Prop
  | loaded {i published : ℕ} {m : BroadcastMemory} (hread : s.accesses.read t = .outside)
      (hpc : (s.accesses.pipeline.threads t).pc = .loadPublished)
      (hload : s.memory.loadAcquire (.book t) .published i = some (published, m)) :
      ThreadMoves numThreads s t
        ⟨s.accesses.goTo t (if (s.accesses.pipeline.threads t).localSeq ≥ published then .testDone
          else .draining published), m⟩
  | tested {i done : ℕ} {m : BroadcastMemory} (hread : s.accesses.read t = .outside)
      (hpc : (s.accesses.pipeline.threads t).pc = .testDone)
      (hload : s.memory.loadAcquire (.book t) .done i = some (done, m)) :
      ThreadMoves numThreads s t
        ⟨s.accesses.goTo t (if done = 0 then .loadPublished else .reloadPublished), m⟩
  | left {i published : ℕ} {m : BroadcastMemory} (hread : s.accesses.read t = .outside)
      (hpc : (s.accesses.pipeline.threads t).pc = .reloadPublished)
      (hload : s.memory.loadAcquire (.book t) .published i = some (published, m))
      (hall : (s.accesses.pipeline.threads t).localSeq ≥ published) :
      ThreadMoves numThreads s t
        ⟨{ s.accesses with
            pipeline := { s.accesses.pipeline.setThread t
                { s.accesses.pipeline.threads t with pc := .exited } with
              threadMessageCounts := Function.update s.accesses.pipeline.threadMessageCounts t
                (s.accesses.pipeline.threads t).localCount } }, m⟩
  | again {i published : ℕ} {m : BroadcastMemory} (hread : s.accesses.read t = .outside)
      (hpc : (s.accesses.pipeline.threads t).pc = .reloadPublished)
      (hload : s.memory.loadAcquire (.book t) .published i = some (published, m)) :
      ThreadMoves numThreads s t ⟨s.accesses.goTo t .loadPublished, m⟩
  | matched {published : ℕ} (hread : s.accesses.read t = .outside)
      (hpc : (s.accesses.pipeline.threads t).pc = .draining published)
      (hlt : (s.accesses.pipeline.threads t).localSeq < published)
      (howned : getShard numThreads (s.accesses.pipeline.nextRead t).tickerKey = t) :
      ThreadMoves numThreads s t
        ⟨s.accesses.setRead t .apply, s.memory.event (.book t)
          (.read t (BroadcastJournal.slotOf journalExponent (s.accesses.pipeline.threads t).localSeq))⟩
  | skimmed {published : ℕ} (hread : s.accesses.read t = .outside)
      (hpc : (s.accesses.pipeline.threads t).pc = .draining published)
      (hlt : (s.accesses.pipeline.threads t).localSeq < published)
      (hother : getShard numThreads (s.accesses.pipeline.nextRead t).tickerKey ≠ t) :
      ThreadMoves numThreads s t
        ⟨{ s.accesses with
            pipeline := s.accesses.pipeline.setThread t
              { s.accesses.pipeline.threads t with
                localSeq := (s.accesses.pipeline.threads t).localSeq + 1
                seen := (s.accesses.pipeline.threads t).seen ++ [s.accesses.pipeline.nextRead t] } },
          s.memory.event (.book t) (.read t
            (BroadcastJournal.slotOf journalExponent (s.accesses.pipeline.threads t).localSeq))⟩
  | drained {published : ℕ} (hread : s.accesses.read t = .outside)
      (hpc : (s.accesses.pipeline.threads t).pc = .draining published) :
      ThreadMoves numThreads s t ⟨s.accesses.goTo t .report, s.memory⟩
  | applied (hread : s.accesses.read t = .apply) :
      ThreadMoves numThreads s t
        ⟨{ s.accesses.setRead t .outside with
            pipeline := s.accesses.pipeline.setThread t
              { s.accesses.pipeline.threads t with
                localSeq := (s.accesses.pipeline.threads t).localSeq + 1
                localCount := (s.accesses.pipeline.threads t).localCount + 1
                manager :=
                  (s.accesses.pipeline.threads t).manager.apply (s.accesses.pipeline.nextRead t)
                seen := (s.accesses.pipeline.threads t).seen ++ [s.accesses.pipeline.nextRead t] } },
          s.memory.event (.book t) (.read t
            (BroadcastJournal.slotOf journalExponent (s.accesses.pipeline.threads t).localSeq))⟩
  | asked {i currentMin : ℕ} {m : BroadcastMemory}
      (hreport : s.accesses.read t = .outside ∧ (s.accesses.pipeline.threads t).pc = .report ∨
        ∃ oldMin, s.accesses.read t = .exchange oldMin)
      (hload : s.memory.loadRelaxed (.book t) .minSeq i = some (currentMin, m)) :
      ThreadMoves numThreads s t ⟨s.accesses.setRead t (.exchange currentMin), m⟩
  | reported {currentMin : ℕ} (hread : s.accesses.read t = .exchange currentMin)
      (hgt : (s.accesses.pipeline.threads t).localSeq > currentMin)
      (hmin : s.accesses.pipeline.journal.minConsumerSeq = currentMin) :
      ThreadMoves numThreads s t
        ⟨{ s.accesses.setRead t .outside with
            pipeline :=
              { s.accesses.pipeline.setThread t
                  { s.accesses.pipeline.threads t with pc := .loadPublished } with
                journal := { s.accesses.pipeline.journal with
                  minConsumerSeq := (s.accesses.pipeline.threads t).localSeq } } },
          s.memory.storeRelease (.book t) .minSeq (s.accesses.pipeline.threads t).localSeq⟩
  | outrun {currentMin : ℕ} (hread : s.accesses.read t = .exchange currentMin)
      (hle : ¬ (s.accesses.pipeline.threads t).localSeq > currentMin) :
      ThreadMoves numThreads s t ⟨s.accesses.goTo t .loadPublished, s.memory⟩

theorem threadMoves_of_threadStep (hstep : s.threadStep numThreads t i = some s') :
    ThreadMoves numThreads s t s' := by
  unfold OrderedBroadcastRun.threadStep at hstep
  dsimp only at hstep
  cases hread : s.accesses.read t with
  | outside =>
    simp only [hread] at hstep
    cases hpc : (s.accesses.pipeline.threads t).pc with
    | loadPublished =>
      simp only [hpc] at hstep
      obtain ⟨⟨published, m⟩, hload, rfl⟩ := Option.map_eq_some_iff.mp hstep
      exact .loaded hread hpc hload
    | testDone =>
      simp only [hpc] at hstep
      obtain ⟨⟨done, m⟩, hload, rfl⟩ := Option.map_eq_some_iff.mp hstep
      exact .tested hread hpc hload
    | reloadPublished =>
      simp only [hpc] at hstep
      obtain ⟨⟨published, m⟩, hload, rfl⟩ := Option.map_eq_some_iff.mp hstep
      dsimp only
      split
      · rename_i hall
        have hmoves : ThreadMoves numThreads s t _ := .left hread hpc hload hall
        simpa only [hread] using hmoves
      · exact .again hread hpc hload
    | draining published =>
      simp only [hpc] at hstep
      split at hstep
      · rename_i hlt
        split at hstep
        · rename_i howned
          exact Option.some.inj hstep ▸ .matched hread hpc hlt howned
        · rename_i hother
          have hmoves := ThreadMoves.skimmed hread hpc hlt hother
          simp only [hpc] at hmoves
          exact Option.some.inj hstep ▸ hmoves
      · exact Option.some.inj hstep ▸ .drained hread hpc
    | report =>
      simp only [hpc] at hstep
      obtain ⟨⟨currentMin, m⟩, hload, rfl⟩ := Option.map_eq_some_iff.mp hstep
      exact .asked (.inl ⟨hread, hpc⟩) hload
    | exited =>
      simp only [hpc] at hstep
      contradiction
  | apply =>
    simp only [hread] at hstep
    exact Option.some.inj hstep ▸ .applied hread
  | exchange currentMin =>
    simp only [hread] at hstep
    split at hstep
    · rename_i hgt
      split at hstep
      · rename_i hmin
        exact Option.some.inj hstep ▸ .reported hread hgt hmin
      · obtain ⟨⟨currentMin, m⟩, hload, rfl⟩ := Option.map_eq_some_iff.mp hstep
        exact .asked (.inr ⟨_, hread⟩) hload
    · rename_i hle
      exact Option.some.inj hstep ▸ .outrun hread hle

theorem threadMoves_of_spuriousStep (hstep : s.spuriousStep t i = some s') :
    ThreadMoves numThreads s t s' := by
  unfold OrderedBroadcastRun.spuriousStep at hstep
  cases hread : s.accesses.read t with
  | exchange currentMin =>
    simp only [hread] at hstep
    obtain ⟨-, hreload⟩ := Option.ite_none_right_eq_some.mp hstep
    obtain ⟨⟨loaded, m⟩, hload, rfl⟩ := Option.map_eq_some_iff.mp hreload
    exact .asked (.inr ⟨_, hread⟩) hload
  | outside | apply =>
    simp only [hread] at hstep
    contradiction

end OrderedBroadcastRun

end NanoRing
