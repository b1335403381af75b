import NanoRing.Pipeline.BroadcastInvariant
import NanoRing.Pipeline.LatencyTracker

/-!
# The latency samples of the broadcast pipeline

With `measure_latency` set the producer stamps every order before it publishes it, and book
thread 0 samples the orders it applies whose sequence number is a multiple of 1000, against the
stamp of the same number. The clock is an input of the steps that read it. The measured pipeline
runs like the unmeasured one. The stamps are ordinary memory: what makes a sample right is that
a thread reads a sequence number only after it is published, so after its stamp is written.
-/

namespace NanoRing

open Schedule

/-- The pipeline with its time stamps; `stamped` while the next order has its stamp and is not
published yet. -/
structure MeasuredRun where
  pipeline : BroadcastRun
  publishTs : ℕ → ℕ
  stamped : Bool
  latency : LatencyTracker

/-- The steps of the pipeline; a step that may read the clock is given its reading. -/
inductive MeasuredAction
  | stamp (now : ℕ)
  | publish
  | setDone
  | thread (t now : ℕ)
deriving DecidableEq

namespace MeasuredRun

def start : MeasuredRun where
  pipeline := .start
  publishTs := fun _ => 0
  stamped := false
  latency := .empty

/-- `publish_ts[i] = now`, before the publish of order `i`. -/
def stamp (orders : List DecodedOrder) (s : MeasuredRun) (now : ℕ) : Option MeasuredRun :=
  if s.stamped = false ∧ s.pipeline.nextOrder < orders.length then
    some { s with
      publishTs := Function.update s.publishTs s.pipeline.nextOrder now
      stamped := true }
  else none

/-- The tracker after a step of thread `t`, which samples an order that it applies. -/
def sample (numThreads : ℕ) (s : MeasuredRun) (t now : ℕ) : LatencyTracker :=
  match s.pipeline.visit t with
  | some localSeq =>
    if getShard numThreads (s.pipeline.nextRead t).tickerKey = t ∧ t = 0 ∧ localSeq % 1000 = 0 then
      let pubNs := s.publishTs localSeq
      if now > pubNs then s.latency.record (now - pubNs) else s.latency
    else s.latency
  | none => s.latency

def step (orders : List DecodedOrder) (numThreads : ℕ) (s : MeasuredRun) :
    MeasuredAction → Option MeasuredRun
  | .stamp now => s.stamp orders now
  | .publish =>
    if s.stamped then
      (s.pipeline.publish orders).map fun pipeline =>
        { s with pipeline := pipeline, stamped := false }
    else none
  | .setDone => (s.pipeline.setDone orders).map fun pipeline => { s with pipeline := pipeline }
  | .thread t now =>
    if t < numThreads then
      (s.pipeline.threadStep numThreads t).map fun pipeline =>
        { s with pipeline := pipeline, latency := s.sample numThreads t now }
    else none

/-- The step of the unmeasured pipeline. -/
def forget : MeasuredAction → Option BroadcastAction
  | .stamp _ => none
  | .publish => some .publish
  | .setDone => some .setDone
  | .thread t _ => some (.thread t)

/-- The reading that a step stamps an order with. -/
def reading : MeasuredAction → Option ℕ
  | .stamp now => some now
  | .publish | .setDone | .thread _ _ => none

variable {orders : List DecodedOrder} {numThreads : ℕ} {s s' : MeasuredRun}

/-- Measuring changes no step of the pipeline. -/
theorem step_seen {a : MeasuredAction} {a' : BroadcastAction}
    (h : s.step orders numThreads a = some s') (hforget : forget a = some a') :
    s.pipeline.step orders numThreads a' = some s'.pipeline := by
  cases a with
  | stamp now => contradiction
  | publish =>
    obtain rfl := Option.some.inj hforget
    obtain ⟨pipeline, hstep, rfl⟩ := Option.map_eq_some_iff.mp (Option.ite_none_right_eq_some.mp h).2
    exact hstep
  | setDone =>
    obtain rfl := Option.some.inj hforget
    obtain ⟨pipeline, hstep, rfl⟩ := Option.map_eq_some_iff.mp h
    exact hstep
  | thread t now =>
    obtain rfl := Option.some.inj hforget
    obtain ⟨ht, hthread⟩ := Option.ite_none_right_eq_some.mp h
    obtain ⟨pipeline, hstep, rfl⟩ := Option.map_eq_some_iff.mp hthread
    exact (if_pos ht).trans hstep

/-- The orders below this number have their stamps. -/
def stampedUpTo (s : MeasuredRun) : ℕ := s.pipeline.nextOrder + if s.stamped then 1 else 0

/-- The stamps that are written. -/
def stamps (s : MeasuredRun) : List ℕ := (List.range s.stampedUpTo).map s.publishTs

theorem getElem?_stamps {i : ℕ} (h : i < s.stampedUpTo) : s.stamps[i]? = some (s.publishTs i) := by
  rw [stamps, List.getElem?_map, List.getElem?_range h, Option.map_some]

/-- A stamp is written once, with the reading of its step. -/
theorem stamps_step {a : MeasuredAction} (h : s.step orders numThreads a = some s') :
    s'.stamps = s.stamps ++ (reading a).toList := by
  cases a with
  | stamp now =>
    obtain ⟨⟨hopen, -⟩, hset⟩ := Option.ite_none_right_eq_some.mp h
    obtain rfl := Option.some.inj hset
    rw [stamps, stamps, stampedUpTo, stampedUpTo, if_pos rfl, if_neg (Bool.not_eq_true _ ▸ hopen)]
    exact map_range_update s.publishTs s.pipeline.nextOrder now
  | publish =>
    obtain ⟨hstamped, hpublish⟩ := Option.ite_none_right_eq_some.mp h
    obtain ⟨pipeline, hstep, rfl⟩ := Option.map_eq_some_iff.mp hpublish
    have hnext : pipeline.nextOrder = s.pipeline.nextOrder + 1 := by
      unfold BroadcastRun.publish at hstep
      split at hstep
      · exact Option.some.inj hstep ▸ rfl
      · contradiction
    rw [stamps, stamps, stampedUpTo, stampedUpTo, hnext, if_pos hstamped]
    exact (List.append_nil _).symm
  | setDone =>
    obtain ⟨pipeline, hstep, rfl⟩ := Option.map_eq_some_iff.mp h
    have hnext : pipeline.nextOrder = s.pipeline.nextOrder :=
      Option.some.inj (Option.ite_none_right_eq_some.mp hstep).2 ▸ rfl
    rw [stamps, stamps, stampedUpTo, stampedUpTo, hnext]
    exact (List.append_nil _).symm
  | thread t now =>
    obtain ⟨-, hthread⟩ := Option.ite_none_right_eq_some.mp h
    obtain ⟨pipeline, hstep, rfl⟩ := Option.map_eq_some_iff.mp hthread
    rw [stamps, stamps, stampedUpTo, stampedUpTo, (BroadcastRun.threadStep_slots hstep).2]
    exact (List.append_nil _).symm

/-! ### Samples -/

/-- A latency that is the time from the stamp of a sequence number to a later reading of the
clock by thread 0, which has read that number. -/
structure IsSample (taken : List MeasuredAction) (s : MeasuredRun) (ns localSeq stamp now : ℕ) :
    Prop where
  thousandth : localSeq % 1000 = 0
  read : localSeq < (s.pipeline.threads 0).localSeq
  stamped : s.stamps[localSeq]? = some stamp
  clocked : .thread 0 now ∈ taken
  later : stamp < now
  eq : ns = now - stamp

/-- What the tracker holds after a run. -/
structure Sampled (taken : List MeasuredAction) (s : MeasuredRun) : Prop where
  count_le : s.latency.count ≤ ((s.pipeline.threads 0).localSeq + 999) / 1000
  made : ∀ ns ∈ s.latency.recorded, ∃ localSeq stamp now, IsSample taken s ns localSeq stamp now

theorem IsSample.step {taken : List MeasuredAction} {ns localSeq stamp now : ℕ}
    (h : IsSample taken s ns localSeq stamp now) {a : MeasuredAction}
    (hread : (s.pipeline.threads 0).localSeq ≤ (s'.pipeline.threads 0).localSeq)
    (hstep : s.step orders numThreads a = some s') :
    IsSample (taken ++ [a]) s' ns localSeq stamp now where
  thousandth := h.thousandth
  read := h.read.trans_le hread
  stamped := by
    obtain ⟨hlt, -⟩ := List.getElem?_eq_some_iff.mp h.stamped
    rw [stamps_step hstep, List.getElem?_append_left hlt]
    exact h.stamped
  clocked := List.mem_append_left _ h.clocked
  later := h.later
  eq := h.eq

/-- A step that takes no sample keeps what is known of the tracker. -/
theorem Sampled.step_of_latency_eq {taken : List MeasuredAction} (h : Sampled taken s)
    {a : MeasuredAction} (hlatency : s'.latency = s.latency)
    (hread : (s.pipeline.threads 0).localSeq ≤ (s'.pipeline.threads 0).localSeq)
    (hstep : s.step orders numThreads a = some s') : Sampled (taken ++ [a]) s' where
  count_le := hlatency ▸ h.count_le.trans (Nat.div_le_div_right (by omega))
  made := fun ns hns => by
    obtain ⟨localSeq, stamp, now, hsample⟩ := h.made ns (hlatency ▸ hns)
    exact ⟨localSeq, stamp, now, hsample.step hread hstep⟩

/-- A step samples nothing, or thread 0 records the time from the stamp of what it reads. -/
theorem sample_cases (numThreads : ℕ) (s : MeasuredRun) (t now : ℕ) :
    s.sample numThreads t now = s.latency ∨ ∃ localSeq, s.pipeline.visit t = some localSeq ∧
      t = 0 ∧ localSeq % 1000 = 0 ∧ s.publishTs localSeq < now ∧
      s.sample numThreads t now = s.latency.record (now - s.publishTs localSeq) := by
  unfold sample
  split
  · rename_i localSeq hvisit
    split
    · rename_i howned
      dsimp only
      split
      · rename_i hlater
        exact .inr ⟨localSeq, hvisit, howned.2.1, howned.2.2, hlater, rfl⟩
      · exact .inl rfl
    · exact .inl rfl
  · exact .inl rfl

/-- A thread reads its own sequence number, below an index that it has loaded. -/
theorem visit_eq_some {pipeline : BroadcastRun} {t localSeq : ℕ}
    (h : pipeline.visit t = some localSeq) :
    localSeq = (pipeline.threads t).localSeq ∧
      ∃ published, (pipeline.threads t).pc = .draining published ∧ localSeq < published := by
  unfold BroadcastRun.visit at h
  split at h
  · rename_i published hpc
    obtain ⟨hlt, hself⟩ := Option.ite_none_right_eq_some.mp h
    obtain rfl := Option.some.inj hself
    exact ⟨rfl, published, hpc, hlt⟩
  · contradiction

/-- Every step keeps what is known of the tracker. -/
theorem Sampled.step {taken : List MeasuredAction} (h : Sampled taken s)
    (hpaced : BroadcastRun.Paced orders numThreads s.pipeline) {a : MeasuredAction}
    (hstep : s.step orders numThreads a = some s') : Sampled (taken ++ [a]) s' := by
  cases a with
  | stamp now =>
    have hset := Option.some.inj (Option.ite_none_right_eq_some.mp hstep).2
    exact h.step_of_latency_eq (hset ▸ rfl) (hset ▸ le_rfl) hstep
  | publish =>
    have hthreads := BroadcastRun.threads_of_other (t := 0) (step_seen hstep rfl) nofun
    obtain ⟨pipeline, -, rfl⟩ := Option.map_eq_some_iff.mp (Option.ite_none_right_eq_some.mp hstep).2
    exact h.step_of_latency_eq rfl (hthreads ▸ le_rfl) hstep
  | setDone =>
    have hthreads := BroadcastRun.threads_of_other (t := 0) (step_seen hstep rfl) nofun
    obtain ⟨pipeline, -, rfl⟩ := Option.map_eq_some_iff.mp hstep
    exact h.step_of_latency_eq rfl (hthreads ▸ le_rfl) hstep
  | thread t now =>
    have hpipeline := step_seen hstep rfl
    obtain ⟨ht, hthread⟩ := Option.ite_none_right_eq_some.mp hpipeline
    have hlatency : s'.latency = s.sample numThreads t now := by
      obtain ⟨_, -, rfl⟩ := Option.map_eq_some_iff.mp (Option.ite_none_right_eq_some.mp hstep).2
      rfl
    have hread : (s.pipeline.threads 0).localSeq ≤ (s'.pipeline.threads 0).localSeq := by
      by_cases hzero : t = 0
      · subst hzero
        have hlength := congrArg List.length (BroadcastRun.localSeq_threadStep hthread)
        rw [List.length_append, List.length_range, List.length_range] at hlength
        omega
      · have hother : BroadcastAction.thread t ≠ .thread 0 :=
          fun heq => hzero (BroadcastAction.thread.inj heq)
        rw [BroadcastRun.threads_of_other hpipeline hother]
    obtain hnone | ⟨localSeq, hvisit, rfl, hthousandth, hlater, hrecord⟩ :=
      sample_cases numThreads s t now
    · exact h.step_of_latency_eq (hlatency.trans hnone) hread hstep
    · -- the sequence number that is read is published, so it has its stamp
      obtain ⟨hself, published, hpc, hlt⟩ := visit_eq_some hvisit
      have hpublished := (hpaced.knows 0 ht).draining_le published hpc
      have hstamped : localSeq < s.stampedUpTo :=
        (hlt.trans_le hpublished).trans_le (Nat.le_add_right _ _)
      have hlength := congrArg List.length (BroadcastRun.localSeq_threadStep hthread)
      rw [List.length_append, List.length_range, List.length_range, hvisit] at hlength
      change _ = _ + 1 at hlength
      refine ⟨?_, fun ns hns => ?_⟩
      · have hcount := LatencyTracker.count_record_le s.latency (now - s.publishTs localSeq)
        have hle := h.count_le
        rw [hlatency, hrecord]
        omega
      · rw [hlatency, hrecord] at hns
        rcases LatencyTracker.mem_recorded_record hns with hold | rfl
        · obtain ⟨localSeq', stamp, now', hsample⟩ := h.made ns hold
          exact ⟨localSeq', stamp, now', hsample.step hread hstep⟩
        · refine ⟨localSeq, s.publishTs localSeq, now, hthousandth, by omega, ?_,
            List.mem_append_right _ List.mem_cons_self, hlater, rfl⟩
          have hstamp := getElem?_stamps hstamped
          obtain ⟨hwithin, -⟩ := List.getElem?_eq_some_iff.mp hstamp
          rw [stamps_step hstep, List.getElem?_append_left hwithin]
          exact hstamp

end MeasuredRun

end NanoRing
