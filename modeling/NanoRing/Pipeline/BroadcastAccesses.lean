import NanoRing.Common.Simulation
import NanoRing.Pipeline.BroadcastProgress

/-!
# The broadcast pipeline, access by access

In the broadcast pipeline a publish, a read and a report of progress are one step each. Here the
copy of an order and the store of the published index are apart, a report is a loop of
compare-exchanges, and a book thread, which gets a reference to the slot and no copy, reads the
slot once for the shard and again for its book. As long as no copy laps a thread, both reads find
the same order, and the memory is that of a run in which each call is one step.
-/

namespace NanoRing

open Schedule

/-- Where the producer is: about to copy the next order, or to make it visible. -/
inductive PublishAccess
  | copyItem
  | storePublished
deriving DecidableEq

/-- Where a book thread is: at a step of the pipeline, about to apply the order in the slot that it
has found to be its own, or in the loop of `report_consumer_progress`. -/
inductive ReadAccess
  | outside
  | apply
  | exchange (currentMin : ℕ)
deriving DecidableEq

/-- The pipeline, with the journal as it is in memory, and where its threads are in a call. -/
structure BroadcastAccessRun where
  pipeline : BroadcastRun
  publish : PublishAccess
  read : ℕ → ReadAccess

/-- The next access of a thread, or a compare-exchange of book thread `t` that fails for no
reason. -/
inductive BroadcastAccess
  | publish
  | setDone
  | thread (t : ℕ)
  | spurious (t : ℕ)
deriving DecidableEq

namespace BroadcastAccessRun

def start : BroadcastAccessRun where
  pipeline := .start
  publish := .copyItem
  read := fun _ => .outside

/-- The state with one book thread at another access. -/
def setRead (s : BroadcastAccessRun) (t : ℕ) (read : ReadAccess) : BroadcastAccessRun :=
  { s with read := Function.update s.read t read }

/-- The next access of the producer in `publish`. -/
def publishStep (orders : List DecodedOrder) (s : BroadcastAccessRun) : Option BroadcastAccessRun :=
  match s.publish with
  | .copyItem =>
    match orders[s.pipeline.nextOrder]? with
    | some order =>
      some { s with
        pipeline := { s.pipeline with
          journal := s.pipeline.journal.copyItem journalExponent s.pipeline.nextOrder order }
        publish := .storePublished }
    | none => none
  | .storePublished =>
    some { s with
      pipeline := { s.pipeline with
        journal := s.pipeline.journal.storePublished s.pipeline.nextOrder
        nextOrder := s.pipeline.nextOrder + 1 }
      publish := .copyItem }

/-- The store of the flag, after the last publish. -/
def setDone (orders : List DecodedOrder) (s : BroadcastAccessRun) : Option BroadcastAccessRun :=
  match s.publish with
  | .copyItem => (s.pipeline.setDone orders).map fun pipeline => { s with pipeline }
  | .storePublished => none

/-- The next access of book thread `t`. The slot of an order that the thread's shard owns is read
again to apply it; the loop of a report ends when the minimum is not below the thread. -/
def threadStep (numThreads : ℕ) (s : BroadcastAccessRun) (t : ℕ) : Option BroadcastAccessRun :=
  let thread := s.pipeline.threads t
  let order := s.pipeline.journal.getPayload journalExponent thread.localSeq
  let minSeq := s.pipeline.journal.minConsumerSeq
  match s.read t with
  | .outside =>
    match thread.pc with
    | .draining published =>
      if thread.localSeq < published then
        if getShard numThreads order.tickerKey = t then some (s.setRead t .apply)
        else
          some { s with
            pipeline := s.pipeline.setThread t
              { thread with localSeq := thread.localSeq + 1, seen := thread.seen ++ [order] } }
      else (s.pipeline.threadStep numThreads t).map fun pipeline => { s with pipeline }
    | .report => some (s.setRead t (.exchange minSeq))
    | _ => (s.pipeline.threadStep numThreads t).map fun pipeline => { s with pipeline }
  | .apply =>
    some { s.setRead t .outside with
      pipeline := s.pipeline.setThread t
        { thread with
          localSeq := thread.localSeq + 1
          localCount := thread.localCount + 1
          manager := thread.manager.apply order
          seen := thread.seen ++ [order] } }
  | .exchange currentMin =>
    if thread.localSeq > currentMin then
      if minSeq = currentMin then
        some { s.setRead t .outside with
          pipeline := { s.pipeline.setThread t { thread with pc := .loadPublished } with
            journal := { s.pipeline.journal with minConsumerSeq := thread.localSeq } } }
      else some (s.setRead t (.exchange minSeq))
    else
      some { s.setRead t .outside with
        pipeline := s.pipeline.setThread t { thread with pc := .loadPublished } }

/-- A compare-exchange that fails for no reason loads the minimum again. -/
def spuriousStep (s : BroadcastAccessRun) (t : ℕ) : Option BroadcastAccessRun :=
  match s.read t with
  | .exchange currentMin =>
    if (s.pipeline.threads t).localSeq > currentMin then
      some (s.setRead t (.exchange s.pipeline.journal.minConsumerSeq))
    else none
  | _ => none

/-- One access of the pipeline with book threads below `numThreads`. -/
def step (orders : List DecodedOrder) (numThreads : ℕ) (s : BroadcastAccessRun) :
    BroadcastAccess → Option BroadcastAccessRun
  | .publish => s.publishStep orders
  | .setDone => s.setDone orders
  | .thread t => if t < numThreads then s.threadStep numThreads t else none
  | .spurious t => if t < numThreads then s.spuriousStep t else none

/-- A copy does not lap a book thread: the number whose slot it takes has been read. -/
def KeepsUp (orders : List DecodedOrder) (numThreads : ℕ) (s : BroadcastAccessRun)
    (a : BroadcastAccess) : Prop :=
  a = .publish → s.publish = .copyItem →
    BroadcastRun.KeepsUp orders numThreads s.pipeline .publish

end BroadcastAccessRun

/-! ## What the journal keeps while it is accessed -/

namespace BroadcastRun

variable {orders : List DecodedOrder} {numThreads : ℕ} {c c' : BroadcastRun} {t : ℕ}

/-- The memory while the producer is at an access: the order that it has copied into its slot is in
it, and not yet published. -/
def written (orders : List DecodedOrder) (c : BroadcastRun) : PublishAccess → BroadcastRun
  | .copyItem => c
  | .storePublished =>
    { c with
      journal := c.journal.copyItem journalExponent c.nextOrder (orders.getD c.nextOrder default) }

/-- The order that is copied in is the next one, and its slot is one that all threads have read. -/
def PublishSound (orders : List DecodedOrder) (numThreads : ℕ) (c : BroadcastRun) :
    PublishAccess → Prop
  | .copyItem => True
  | .storePublished => c.nextOrder < orders.length ∧
      ∀ t < numThreads, c.nextOrder < (c.threads t).localSeq + 2 ^ journalExponent

/-- What a book thread has read and found is still right. -/
def ReadSound (numThreads : ℕ) (c : BroadcastRun) (t : ℕ) : ReadAccess → Prop
  | .outside => True
  | .apply =>
    (∃ published, (c.threads t).pc = .draining published ∧ (c.threads t).localSeq < published) ∧
      getShard numThreads (c.nextRead t).tickerKey = t
  | .exchange currentMin =>
    (c.threads t).pc = .report ∧ currentMin ≤ c.journal.minConsumerSeq

@[simp] theorem written_threads (orders : List DecodedOrder) (c : BroadcastRun)
    (publish : PublishAccess) : (c.written orders publish).threads = c.threads := by
  cases publish <;> rfl

@[simp] theorem written_producerDone (orders : List DecodedOrder) (c : BroadcastRun)
    (publish : PublishAccess) : (c.written orders publish).producerDone = c.producerDone := by
  cases publish <;> rfl

/-- A copied order is not visible: both indices are as they were. -/
theorem written_journal (orders : List DecodedOrder) (c : BroadcastRun) (publish : PublishAccess) :
    (c.written orders publish).journal.publishedIndex = c.journal.publishedIndex ∧
      (c.written orders publish).journal.minConsumerSeq = c.journal.minConsumerSeq := by
  cases publish <;> exact ⟨rfl, rfl⟩

theorem written_setThread (orders : List DecodedOrder) (c : BroadcastRun) (publish : PublishAccess)
    (t : ℕ) (thread : BookThread) :
    (c.written orders publish).setThread t thread =
      (c.setThread t thread).written orders publish := by
  cases publish <;> rfl

theorem written_minConsumerSeq (orders : List DecodedOrder) (c : BroadcastRun)
    (publish : PublishAccess) (t minSeq : ℕ) (thread : BookThread) :
    { (c.written orders publish).setThread t thread with
        journal := { (c.written orders publish).journal with minConsumerSeq := minSeq } } =
      written orders { c.setThread t thread with
        journal := { c.journal with minConsumerSeq := minSeq } } publish := by
  cases publish <;> rfl

/-- A thread that reads no order does not look at the slots. -/
theorem threadStep_written (publish : PublishAccess) (hvisit : c.visit t = none)
    (hreport : (c.threads t).pc ≠ .report) :
    (c.written orders publish).threadStep numThreads t =
      (c.threadStep numThreads t).map fun c' => c'.written orders publish := by
  cases publish with
  | copyItem => exact Option.map_id'.symm
  | storePublished =>
    unfold BroadcastRun.threadStep
    rw [written_threads]
    dsimp only
    cases hpc : (c.threads t).pc with
    | loadPublished | testDone | reloadPublished =>
      dsimp only
      rw [apply_ite (Option.map _)]
      rfl
    | draining published =>
      rw [visit, hpc] at hvisit
      have hge : ¬ (c.threads t).localSeq < published := by simpa using hvisit
      dsimp only
      rw [if_neg hge, if_neg hge]
      rfl
    | report => exact absurd hpc hreport
    | exited => rfl

/-- Where a thread reads, the slot holds the order of its number. -/
theorem Inv.nextRead_eq (h : Inv orders numThreads c) (ht : t < numThreads) {published : ℕ}
    (hpc : (c.threads t).pc = .draining published) (hlt : (c.threads t).localSeq < published) :
    c.nextRead t = orders.getD (c.threads t).localSeq default :=
  (h.reads t ht).unread.getPayload_eq le_rfl
    (hlt.trans_le ((h.knows t ht).draining_le published hpc))

/-- So does the memory, whatever is being copied in. -/
theorem Inv.nextRead_written (h : Inv orders numThreads c) (ht : t < numThreads) {published : ℕ}
    {publish : PublishAccess} (hsound : PublishSound orders numThreads c publish)
    (hpc : (c.threads t).pc = .draining published) (hlt : (c.threads t).localSeq < published) :
    (c.written orders publish).nextRead t = c.nextRead t := by
  cases publish with
  | copyItem => rfl
  | storePublished =>
    rw [h.nextRead_eq ht hpc hlt]
    have hpublished := hlt.trans_le ((h.knows t ht).draining_le published hpc)
    exact ((h.reads t ht).unread.copyItem (hsound.2 t ht)).getPayload_eq le_rfl
      (hpublished.trans (Nat.lt_succ_self _))

theorem threadStep_of_report (hpc : (c.threads t).pc = .report) :
    c.threadStep numThreads t = some
      { c.setThread t { c.threads t with pc := .loadPublished } with
        journal := c.journal.reportConsumerProgress (c.threads t).localSeq } := by
  unfold threadStep
  dsimp only
  rw [hpc]

/-- No thread goes back. -/
theorem localSeq_le_of_threadStep (h : c.threadStep numThreads t = some c') (t' : ℕ) :
    (c.threads t').localSeq ≤ (c'.threads t').localSeq := by
  by_cases hne : t' = t
  · subst hne
    have hlength := congrArg List.length (localSeq_threadStep h)
    rw [List.length_append, List.length_range, List.length_range] at hlength
    omega
  · rw [(threadMoves_of_threadStep h).frame.2.2.2 t' hne]

/-- No report lowers the minimum. -/
theorem minConsumerSeq_le_of_threadStep (h : c.threadStep numThreads t = some c') :
    c.journal.minConsumerSeq ≤ c'.journal.minConsumerSeq := by
  cases threadMoves_of_threadStep h with
  | report hpc =>
    dsimp only
    unfold BroadcastJournal.reportConsumerProgress
    split
    · rename_i hgt
      exact hgt.le
    · exact le_rfl
  | caughtUp | load | foundDone | again | leave | moreOrders | read | drained => exact le_rfl

/-- A thread's knowledge survives what leaves the thread and its slot alone and lowers no report. -/
theorem ReadSound.mono {read : ReadAccess} (h : ReadSound numThreads c t read)
    (hthread : c'.threads t = c.threads t)
    (hread : ∀ published, (c.threads t).pc = .draining published →
      (c.threads t).localSeq < published → c'.nextRead t = c.nextRead t)
    (hmin : c.journal.minConsumerSeq ≤ c'.journal.minConsumerSeq) :
    ReadSound numThreads c' t read := by
  unfold ReadSound at h ⊢
  rw [hthread]
  cases read with
  | outside => trivial
  | apply =>
    obtain ⟨⟨published, hpc, hlt⟩, howned⟩ := h
    exact ⟨⟨published, hpc, hlt⟩, hread published hpc hlt ▸ howned⟩
  | exchange currentMin => exact ⟨h.1, h.2.trans hmin⟩

end BroadcastRun

namespace BroadcastAccessRun

variable {orders : List DecodedOrder} {numThreads : ℕ} {s s' : BroadcastAccessRun}
  {c c' : BroadcastRun} {t : ℕ}

/-- The memory is that of a pipeline whose calls are one step each, apart from an order that is
copied in, and every thread that is in a call knows what it has to know. -/
structure Refines (orders : List DecodedOrder) (numThreads : ℕ) (s : BroadcastAccessRun)
    (c : BroadcastRun) : Prop where
  inv : c.Inv orders numThreads
  memory : s.pipeline = c.written orders s.publish
  publish : c.PublishSound orders numThreads s.publish
  read : ∀ t < numThreads, c.ReadSound numThreads t (s.read t)

theorem start_refines (orders : List DecodedOrder) (numThreads : ℕ) :
    Refines orders numThreads start BroadcastRun.start where
  inv := BroadcastRun.start_inv orders numThreads
  memory := rfl
  publish := trivial
  read := fun _ _ => trivial

/-- A copy is no step of the pipeline, and the store that follows it is the publish. -/
theorem Refines.publishStep (h : Refines orders numThreads s c)
    (hkeepsUp : KeepsUp orders numThreads s .publish) (hstep : s.publishStep orders = some s') :
    Refines orders numThreads s' c ∨ ∃ c', BroadcastRun.KeepsUp orders numThreads c .publish ∧
      c.publish orders = some c' ∧ Refines orders numThreads s' c' := by
  have hmemory := h.memory
  have hsound := h.publish
  unfold BroadcastAccessRun.publishStep at hstep
  cases hpublish : s.publish with
  | copyItem =>
    rw [hpublish] at hmemory
    simp only [hpublish] at hstep
    split at hstep
    · rename_i order horder
      obtain rfl := Option.some.inj hstep
      have hroom := hkeepsUp rfl hpublish
      rw [hmemory] at horder hroom
      obtain ⟨hlt, -⟩ := List.getElem?_eq_some_iff.mp horder
      have hitem : orders.getD c.nextOrder default = order :=
        (List.getD_eq_getElem?_getD).trans (congrArg (Option.getD · default) horder)
      refine .inl ⟨h.inv, ?_, ⟨hlt, hroom rfl hlt⟩, h.read⟩
      rw [hmemory, ← hitem]
      rfl
    · contradiction
  | storePublished =>
    rw [hpublish] at hmemory hsound
    simp only [hpublish] at hstep
    obtain rfl := Option.some.inj hstep
    obtain ⟨hlt, hroom⟩ := hsound
    have horder : orders[c.nextOrder]? = some (orders.getD c.nextOrder default) := by
      rw [List.getD_eq_getElem _ _ hlt]
      exact List.getElem?_eq_getElem hlt
    have hcoarse : c.publish orders = some
        { c with
          journal := c.journal.publish journalExponent c.nextOrder (orders.getD c.nextOrder default)
          nextOrder := c.nextOrder + 1 } := by
      rw [BroadcastRun.publish, horder]
    have hkeeps : BroadcastRun.KeepsUp orders numThreads c .publish := fun _ _ => hroom
    have hinv := h.inv.step (a := .publish) hkeeps hcoarse
    refine .inr ⟨_, hkeeps, hcoarse, hinv, ?_, trivial, fun t ht => ?_⟩
    · rw [hmemory]
      rfl
    · refine (h.read t ht).mono rfl (fun published hpc hread => ?_) le_rfl
      rw [hinv.nextRead_eq ht hpc hread, h.inv.nextRead_eq ht hpc hread]

theorem Refines.setDone (h : Refines orders numThreads s c) (hstep : s.setDone orders = some s') :
    ∃ c', c.setDone orders = some c' ∧ Refines orders numThreads s' c' := by
  have hmemory := h.memory
  unfold BroadcastAccessRun.setDone at hstep
  cases hpublish : s.publish with
  | copyItem =>
    rw [hpublish] at hmemory
    simp only [hpublish] at hstep
    obtain ⟨c', hcoarse, rfl⟩ := Option.map_eq_some_iff.mp hstep
    rw [hmemory] at hcoarse
    have hinv := h.inv.step (a := .setDone) nofun hcoarse
    obtain ⟨-, hset⟩ := Option.ite_none_right_eq_some.mp hcoarse
    obtain rfl := Option.some.inj hset
    exact ⟨_, hcoarse, hinv, rfl, trivial, fun t ht => (h.read t ht).mono rfl (fun _ _ _ => rfl) le_rfl⟩
  | storePublished =>
    simp only [hpublish] at hstep
    contradiction

/-- A thread that goes to its next access changes nothing that the pipeline sees. -/
theorem Refines.setRead (h : Refines orders numThreads s c) {read : ReadAccess}
    (hread : c.ReadSound numThreads t read) : Refines orders numThreads (s.setRead t read) c where
  inv := h.inv
  memory := h.memory
  publish := h.publish
  read := (Function.forall_update_iff s.read (p := fun t' read' => t' < numThreads →
    c.ReadSound numThreads t' read')).mpr ⟨fun _ => hread, fun t' _ => h.read t'⟩

/-- A thread that takes its step of the pipeline is outside its calls. -/
theorem Refines.moveThread (h : Refines orders numThreads s c) (ht : t < numThreads)
    (hthread : c.threadStep numThreads t = some c') :
    Refines orders numThreads
      { s.setRead t .outside with pipeline := c'.written orders s.publish } c' where
  inv := h.inv.step (a := .thread t) nofun ((if_pos ht).trans hthread)
  memory := rfl
  publish := by
    obtain ⟨-, hnext⟩ := BroadcastRun.threadStep_slots hthread
    have hsound := h.publish
    change c'.PublishSound orders numThreads s.publish
    cases hpublish : s.publish with
    | copyItem => trivial
    | storePublished =>
      rw [hpublish] at hsound
      rw [BroadcastRun.PublishSound, hnext]
      refine ⟨hsound.1, fun t' ht' => (hsound.2 t' ht').trans_le (Nat.add_le_add_right ?_ _)⟩
      exact BroadcastRun.localSeq_le_of_threadStep hthread t'
  read := (Function.forall_update_iff s.read (p := fun t' read' => t' < numThreads →
    c'.ReadSound numThreads t' read')).mpr ⟨fun _ => trivial, fun t' hne ht' => by
      have hother := (BroadcastRun.threadMoves_of_threadStep hthread).frame.2.2.2 t' hne
      obtain ⟨hslots, -⟩ := BroadcastRun.threadStep_slots hthread
      refine (h.read t' ht').mono hother (fun _ _ _ => ?_)
        (BroadcastRun.minConsumerSeq_le_of_threadStep hthread)
      rw [BroadcastRun.nextRead, BroadcastRun.nextRead, BroadcastJournal.getPayload,
        BroadcastJournal.getPayload, hslots, hother]⟩

/-- Where a thread reads, the memory has the order that the pipeline reads. -/
theorem Refines.getPayload_eq (h : Refines orders numThreads s c) (ht : t < numThreads)
    {published : ℕ} (hpc : (c.threads t).pc = .draining published)
    (hlt : (c.threads t).localSeq < published) :
    s.pipeline.journal.getPayload journalExponent (c.threads t).localSeq = c.nextRead t := by
  have hread := h.inv.nextRead_written ht h.publish hpc hlt
  rw [BroadcastRun.nextRead, BroadcastRun.written_threads, ← h.memory] at hread
  exact hread

/-- A first read of a slot and the loads of a report are no step of the pipeline; the read that
applies the order is one, and so is the access that ends a report. -/
theorem Refines.threadStep (h : Refines orders numThreads s c) (ht : t < numThreads)
    (hstep : s.threadStep numThreads t = some s') :
    Refines orders numThreads s' c ∨
      ∃ c', c.threadStep numThreads t = some c' ∧ Refines orders numThreads s' c' := by
  have hmemory := h.memory
  have hsound := h.read t ht
  have hthread : s.pipeline.threads t = c.threads t := by
    rw [hmemory, BroadcastRun.written_threads]
  obtain ⟨-, hmin⟩ := BroadcastRun.written_journal orders c s.publish
  rw [← hmemory] at hmin
  -- a step of the pipeline that reads no order is the same in memory
  have hplain (hvisit : c.visit t = none) (hreport : (c.threads t).pc ≠ .report)
      (houtside : s.read t = .outside) (pipeline : BroadcastRun)
      (hmove : s.pipeline.threadStep numThreads t = some pipeline) :
      ∃ c', c.threadStep numThreads t = some c' ∧
        Refines orders numThreads { s with pipeline := pipeline } c' := by
    rw [hmemory, BroadcastRun.threadStep_written s.publish hvisit hreport] at hmove
    obtain ⟨c', hcoarse, rfl⟩ := Option.map_eq_some_iff.mp hmove
    have hmoved := h.moveThread ht hcoarse
    rw [BroadcastAccessRun.setRead, ← houtside, Function.update_eq_self] at hmoved
    exact ⟨c', hcoarse, hmoved⟩
  unfold BroadcastAccessRun.threadStep at hstep
  rw [hthread] at hstep
  dsimp only at hstep
  cases hread : s.read t with
  | outside =>
    simp only [hread] at hstep
    cases hpc : (c.threads t).pc with
    | draining published =>
      simp only [hpc] at hstep
      split at hstep
      · rename_i hlt
        rw [h.getPayload_eq ht hpc hlt] at hstep
        split at hstep
        · rename_i howned
          exact .inl (Option.some.inj hstep ▸ h.setRead ⟨⟨published, hpc, hlt⟩, howned⟩)
        · rename_i hother
          obtain rfl := Option.some.inj hstep
          have hcoarse : c.threadStep numThreads t = _ := BroadcastRun.threadStep_of_draining hpc hlt
          rw [BroadcastRun.drain_of_other hother, hpc] at hcoarse
          have hmoved := h.moveThread ht hcoarse
          rw [BroadcastAccessRun.setRead, ← hread, Function.update_eq_self,
            ← BroadcastRun.written_setThread, ← hmemory] at hmoved
          exact .inr ⟨_, hcoarse, hmoved⟩
      · rename_i hge
        obtain ⟨pipeline, hmove, rfl⟩ := Option.map_eq_some_iff.mp hstep
        refine .inr (hplain ?_ (by simp [hpc]) hread pipeline hmove)
        rw [BroadcastRun.visit, hpc]
        exact if_neg hge
    | report =>
      simp only [hpc] at hstep
      obtain rfl := Option.some.inj hstep
      exact .inl (h.setRead ⟨hpc, hmin.le⟩)
    | loadPublished | testDone | reloadPublished | exited =>
      simp only [hpc] at hstep
      obtain ⟨pipeline, hmove, rfl⟩ := Option.map_eq_some_iff.mp hstep
      exact .inr (hplain (by rw [BroadcastRun.visit, hpc]) (by simp [hpc]) hread pipeline hmove)
  | apply =>
    simp only [hread] at hstep
    rw [hread] at hsound
    obtain ⟨⟨published, hpc, hlt⟩, howned⟩ := hsound
    rw [h.getPayload_eq ht hpc hlt] at hstep
    obtain rfl := Option.some.inj hstep
    have hcoarse : c.threadStep numThreads t = _ := BroadcastRun.threadStep_of_draining hpc hlt
    rw [BroadcastRun.drain_of_owned howned] at hcoarse
    have hmoved := h.moveThread ht hcoarse
    rw [← BroadcastRun.written_setThread, ← hmemory] at hmoved
    exact .inr ⟨_, hcoarse, hmoved⟩
  | exchange currentMin =>
    simp only [hread] at hstep
    rw [hread] at hsound
    obtain ⟨hpc, hold⟩ := hsound
    have hcoarse : c.threadStep numThreads t = _ := BroadcastRun.threadStep_of_report hpc
    rw [hmin] at hstep
    split at hstep
    · rename_i hgt
      split at hstep
      · rename_i hcurrent
        obtain rfl := Option.some.inj hstep
        rw [BroadcastJournal.reportConsumerProgress, if_pos (hcurrent ▸ hgt)] at hcoarse
        have hmoved := h.moveThread ht hcoarse
        rw [← BroadcastRun.written_minConsumerSeq, ← hmemory] at hmoved
        exact .inr ⟨_, hcoarse, hmoved⟩
      · obtain rfl := Option.some.inj hstep
        exact .inl (h.setRead ⟨hpc, le_rfl⟩)
    · rename_i hle
      obtain rfl := Option.some.inj hstep
      rw [BroadcastJournal.reportConsumerProgress, if_neg (by omega)] at hcoarse
      have hplain : c.threadStep numThreads t =
          some (c.setThread t { c.threads t with pc := .loadPublished }) := hcoarse
      have hmoved := h.moveThread ht hplain
      rw [← BroadcastRun.written_setThread, ← hmemory] at hmoved
      exact .inr ⟨_, hplain, hmoved⟩

theorem Refines.spuriousStep (h : Refines orders numThreads s c) (ht : t < numThreads)
    (hstep : s.spuriousStep t = some s') : Refines orders numThreads s' c := by
  have hsound := h.read t ht
  obtain ⟨-, hmin⟩ := BroadcastRun.written_journal orders c s.publish
  rw [← h.memory] at hmin
  unfold BroadcastAccessRun.spuriousStep at hstep
  cases hread : s.read t with
  | exchange currentMin =>
    rw [hread] at hsound
    simp only [hread] at hstep
    obtain ⟨-, hreload⟩ := Option.ite_none_right_eq_some.mp hstep
    exact Option.some.inj hreload ▸ h.setRead ⟨hsound.1, hmin.le⟩
  | outside | apply =>
    simp only [hread] at hstep
    contradiction

/-- An access is a step of the pipeline, or none that it sees; a copy that laps no thread makes a
publish that laps no thread. -/
theorem Refines.step (h : Refines orders numThreads s c) {a : BroadcastAccess}
    (hkeepsUp : KeepsUp orders numThreads s a) (hstep : s.step orders numThreads a = some s') :
    Refines orders numThreads s' c ∨ ∃ b c', BroadcastRun.KeepsUp orders numThreads c b ∧
      c.step orders numThreads b = some c' ∧ Refines orders numThreads s' c' := by
  cases a with
  | publish =>
    exact (h.publishStep hkeepsUp hstep).imp_right fun ⟨c', hkeeps, hcoarse, h'⟩ =>
      ⟨.publish, c', hkeeps, hcoarse, h'⟩
  | setDone =>
    obtain ⟨c', hcoarse, h'⟩ := h.setDone hstep
    exact .inr ⟨.setDone, c', nofun, hcoarse, h'⟩
  | thread t =>
    obtain ⟨ht, hthread⟩ := Option.ite_none_right_eq_some.mp hstep
    exact (h.threadStep ht hthread).imp_right fun ⟨c', hcoarse, h'⟩ =>
      ⟨.thread t, c', nofun, (if_pos ht).trans hcoarse, h'⟩
  | spurious t =>
    obtain ⟨ht, hspurious⟩ := Option.ite_none_right_eq_some.mp hstep
    exact .inl (h.spuriousStep ht hspurious)

theorem Refines.delivers (h : Refines orders numThreads s c) (hthreads : 1 ≤ numThreads) :
    s.pipeline.Delivers orders numThreads := by
  have hdelivers := h.inv.delivers hthreads
  rw [h.memory]
  cases s.publish with
  | copyItem | storePublished => exact ⟨hdelivers.seen, hdelivers.managers, hdelivers.counts⟩

/-- A run of accesses looks like a run of the pipeline in which no publish laps a thread: the memory
is that of such a run, apart from an order that is copied in; the orders are delivered as in such
a run; and an order that a thread has found to be its own is the one that it will apply. -/
structure Atomic (orders : List DecodedOrder) (numThreads : ℕ) (s : BroadcastAccessRun) : Prop where
  pipeline : ∃ taken c,
    Guarded (BroadcastRun.step orders numThreads) (BroadcastRun.KeepsUp orders numThreads)
      BroadcastRun.start taken ∧
    run (BroadcastRun.step orders numThreads) BroadcastRun.start taken = some c ∧
    s.pipeline = c.written orders s.publish
  delivers : s.pipeline.Delivers orders numThreads
  applies : ∀ t < numThreads, s.read t = .apply →
    orders[(s.pipeline.threads t).localSeq]? = some (s.pipeline.nextRead t) ∧
      getShard numThreads (s.pipeline.nextRead t).tickerKey = t

/-- However the copies, stores, reads and compare-exchanges of all threads interleave, as long as no
copy laps a thread the broadcast pipeline behaves as if every publish, every read and every report
were one step. -/
theorem broadcast_accesses_atomic (hthreads : 1 ≤ numThreads) {actions : List BroadcastAccess}
    (hguard : Guarded (BroadcastAccessRun.step orders numThreads) (KeepsUp orders numThreads) start
      actions)
    (hrun : run (BroadcastAccessRun.step orders numThreads) start actions = some s) :
    Atomic orders numThreads s := by
  obtain ⟨taken, c, hkeepsUp, hcoarse, h⟩ :=
    hguard.simulates (fun _ _ _ _ h hkeepsUp hstep => h.step hkeepsUp hstep)
      (start_refines orders numThreads) hrun
  refine ⟨⟨taken, c, hkeepsUp, hcoarse, h.memory⟩, h.delivers hthreads, fun t ht hread => ?_⟩
  have hsound := h.read t ht
  rw [hread] at hsound
  obtain ⟨⟨published, hpc, hlt⟩, howned⟩ := hsound
  rw [h.memory, h.inv.nextRead_written ht h.publish hpc hlt, BroadcastRun.written_threads]
  have hbound := (hlt.trans_le ((h.inv.knows t ht).draining_le published hpc)).trans_le h.inv.next_le
  refine ⟨?_, howned⟩
  rw [h.inv.nextRead_eq ht hpc hlt, List.getD_eq_getElem _ _ hbound]
  exact List.getElem?_eq_getElem hbound

/-- A thread looks between the copy and the store of an order and reads the slot of an order twice
around the next copy. Both threads report the first order: the compare-exchange of one fails for no
reason at first, that of the other because the minimum has changed. -/
def betweenAccesses : List BroadcastAccess :=
  [.publish, .thread 0, .thread 0, .publish, .thread 0, .publish, .thread 0, .thread 1, .publish,
    .thread 0, .thread 1, .thread 0, .thread 0, .thread 1, .spurious 0, .thread 1, .thread 0,
    .thread 1, .thread 1, .publish, .publish, .setDone] ++
    List.replicate 10 (.thread 0) ++ List.replicate 10 (.thread 1)

/-- The threads apply the three orders and leave their loops. -/
theorem betweenAccesses_delivered :
    ∃ s, run (BroadcastAccessRun.step BroadcastRun.threeOrders 2) start betweenAccesses = some s ∧
      ∑ t ∈ Finset.range 2, s.pipeline.threadMessageCounts t = 3 := by
  have hends : (run (BroadcastAccessRun.step BroadcastRun.threeOrders 2) start betweenAccesses).any
      (fun s => ∀ t < 2, (s.pipeline.threads t).pc = .exited) = true := by decide +kernel
  obtain ⟨s, hrun, hpc⟩ := (Option.any_eq_true _ _).mp hends
  refine ⟨s, hrun,
    (broadcast_accesses_atomic (by decide) ?_ hrun).delivers.counts (of_decide_eq_true hpc)⟩
  exact fun _ _ _ _ _ _ _ => BroadcastRun.keepsUp_of_length_le (by decide) .publish

end BroadcastAccessRun

end NanoRing
