import NanoRing.Feed.TestData
import NanoRing.Pipeline.Broadcast
import NanoRing.Pipeline.LatencyTracker

/-!
# The latency experiment

`experiment_latency`: the producer notes the time before it publishes an order, one consumer notes
the time when it comes to the order, and afterwards the positive differences are sorted and their
percentiles reported. The readings of the clock are an input of the steps, and nothing keeps them in
order: the clock need not be steady, and a difference that is not positive is left out. The consumer
of this experiment loads the published index again after it has found `done` set, so unlike those of
the scaling experiment it never leaves early. The payloads are not used. The product
`p * latencies.size()` is taken in floating point: the truncated product is a parameter.
-/

namespace NanoRing

open Schedule

/-- Where the consumer is in its loop. -/
inductive LatencyPc
  | loadPublished
  | testDone
  | reloadPublished
  | draining (pub : ℕ)
  | exited
deriving DecidableEq

/-- The two threads with what they have noted; `stamped` while the next order has its time and is
not published yet. -/
structure LatencyRun where
  journal : BroadcastJournal DecodedOrder
  nextOrder : ℕ
  stamped : Bool
  done : Bool
  pc : LatencyPc
  localSeq : ℕ
  publishTimes : ℕ → ℕ
  consumeTimes : ℕ → ℕ

/-- The steps of the two threads; the consumer reads the clock when it comes to an order. -/
inductive LatencyAction
  | stamp (now : ℕ)
  | publish
  | setDone
  | consume (now : ℕ)
deriving DecidableEq

namespace LatencyRun

/-- The experiment uses two million orders at most. -/
def measured (data : TestData) : List DecodedOrder := data.orders.take 2000000

def start : LatencyRun where
  journal := .empty
  nextOrder := 0
  stamped := false
  done := false
  pc := .loadPublished
  localSeq := 0
  publishTimes := fun _ => 0
  consumeTimes := fun _ => 0

/-- `publish_times[i] = now`. -/
def stamp (orders : List DecodedOrder) (s : LatencyRun) (now : ℕ) : Option LatencyRun :=
  if s.stamped = false ∧ s.nextOrder < orders.length then
    some { s with
      publishTimes := Function.update s.publishTimes s.nextOrder now
      stamped := true }
  else none

/-- `journal.publish(i, data.orders[i])`. -/
def publish (orders : List DecodedOrder) (s : LatencyRun) : Option LatencyRun :=
  match s.stamped, orders[s.nextOrder]? with
  | true, some order =>
    some { s with
      journal := s.journal.publish journalExponent s.nextOrder order
      nextOrder := s.nextOrder + 1
      stamped := false }
  | _, _ => none

/-- `done.store(true)`, after the loop over the orders. -/
def setDone (orders : List DecodedOrder) (s : LatencyRun) : Option LatencyRun :=
  if s.nextOrder = orders.length ∧ s.done = false then some { s with done := true } else none

/-- The next step of the consumer. -/
def consume (s : LatencyRun) (now : ℕ) : Option LatencyRun :=
  match s.pc with
  | .loadPublished =>
    let pub := s.journal.getPublishedIndex
    if s.localSeq ≥ pub then some { s with pc := .testDone }
    else some { s with pc := .draining pub }
  | .testDone =>
    if s.done then some { s with pc := .reloadPublished }
    else some { s with pc := .loadPublished }
  | .reloadPublished =>
    if s.localSeq ≥ s.journal.getPublishedIndex then some { s with pc := .exited }
    else some { s with pc := .loadPublished }
  | .draining pub =>
    if s.localSeq < pub then
      some { s with
        consumeTimes := Function.update s.consumeTimes s.localSeq now
        localSeq := s.localSeq + 1 }
    else some { s with pc := .loadPublished }
  | .exited => none

def step (orders : List DecodedOrder) (s : LatencyRun) : LatencyAction → Option LatencyRun
  | .stamp now => s.stamp orders now
  | .publish => s.publish orders
  | .setDone => s.setDone orders
  | .consume now => s.consume now

/-- The reading that the producer takes in a step. -/
def publishReading (_ : LatencyRun) : LatencyAction → List ℕ
  | .stamp now => [now]
  | _ => []

/-- The reading that the consumer takes in a step. -/
def consumeReading (s : LatencyRun) : LatencyAction → List ℕ
  | .consume now =>
    match s.pc with
    | .draining pub => if s.localSeq < pub then [now] else []
    | _ => []
  | _ => []

/-- The reading of the clock in a step. -/
def clockReading (s : LatencyRun) (a : LatencyAction) : List ℕ :=
  s.publishReading a ++ s.consumeReading a

/-- The differences that are kept, in the order of the messages. -/
def latencies (orders : List DecodedOrder) (s : LatencyRun) : List ℕ :=
  ((List.range orders.length).filter fun i => s.publishTimes i < s.consumeTimes i).map fun i =>
    s.consumeTimes i - s.publishTimes i

/-- `pct(p)` on the sorted differences, where `scaled` is `static_cast<size_t>(p * size)`. -/
def pct (sorted : List ℕ) (scaled : ℕ) : Option ℕ :=
  let idx := if scaled ≥ sorted.length then sorted.length - 1 else scaled
  sorted[idx]?

/-! ## What holds in every run -/

section Invariant

variable {orders : List DecodedOrder} {s s' : LatencyRun}

/-- The orders below this number have their times. -/
def stampedUpTo (s : LatencyRun) : ℕ := s.nextOrder + if s.stamped then 1 else 0

/-- No message is visited before it has its time, and the consumer leaves after the last one. -/
structure Paced (orders : List DecodedOrder) (s : LatencyRun) : Prop where
  published_eq : s.journal.publishedIndex = s.nextOrder
  next_le : s.nextOrder ≤ orders.length
  next_of_done : s.done = true → s.nextOrder = orders.length
  next_lt : s.stamped = true → s.nextOrder < orders.length
  local_le : s.localSeq ≤ s.nextOrder
  draining_le : ∀ pub, s.pc = .draining pub → pub ≤ s.nextOrder
  reload : s.pc = .reloadPublished → s.done = true
  exited : s.pc = .exited → s.localSeq = orders.length ∧ s.done = true

theorem start_paced (orders : List DecodedOrder) : Paced orders start where
  published_eq := rfl
  next_le := Nat.zero_le _
  next_of_done := nofun
  next_lt := nofun
  local_le := le_rfl
  draining_le := nofun
  reload := nofun
  exited := nofun

/-- What one step of the consumer does. -/
inductive Consumes (s : LatencyRun) (now : ℕ) : LatencyRun → Prop
  | foundNothing (hpc : s.pc = .loadPublished) : Consumes s now { s with pc := .testDone }
  | foundMore (hpc : s.pc = .loadPublished) :
      Consumes s now { s with pc := .draining s.journal.getPublishedIndex }
  | foundDone (hpc : s.pc = .testDone) (hdone : s.done = true) :
      Consumes s now { s with pc := .reloadPublished }
  | again (hpc : s.pc = .testDone ∨ s.pc = .reloadPublished ∨
      ∃ pub, s.pc = .draining pub ∧ ¬ s.localSeq < pub) :
      Consumes s now { s with pc := .loadPublished }
  | left (hpc : s.pc = .reloadPublished) (hall : s.localSeq ≥ s.journal.getPublishedIndex) :
      Consumes s now { s with pc := .exited }
  | visited (pub : ℕ) (hpc : s.pc = .draining pub) (hlt : s.localSeq < pub) :
      Consumes s now { s with
        consumeTimes := Function.update s.consumeTimes s.localSeq now
        localSeq := s.localSeq + 1 }

theorem consumes_of_consume {now : ℕ} (h : s.consume now = some s') : Consumes s now s' := by
  unfold LatencyRun.consume at h
  cases hpc : s.pc with
  | loadPublished =>
    simp only [hpc] at h
    split at h
    · exact Option.some.inj h ▸ .foundNothing hpc
    · exact Option.some.inj h ▸ .foundMore hpc
  | testDone =>
    simp only [hpc] at h
    split at h
    case isTrue hdone => exact Option.some.inj h ▸ .foundDone hpc hdone
    case isFalse => exact Option.some.inj h ▸ .again (.inl hpc)
  | reloadPublished =>
    simp only [hpc] at h
    split at h
    case isTrue hall => exact Option.some.inj h ▸ .left hpc hall
    case isFalse => exact Option.some.inj h ▸ .again (.inr (.inl hpc))
  | draining pub =>
    simp only [hpc] at h
    split at h
    case isTrue hlt =>
      have hvisited : Consumes s now _ := .visited pub hpc hlt
      rw [hpc] at hvisited
      exact Option.some.inj h ▸ hvisited
    case isFalse hge => exact Option.some.inj h ▸ .again (.inr (.inr ⟨pub, hpc, hge⟩))
  | exited =>
    simp only [hpc] at h
    contradiction

theorem Paced.stamp (h : Paced orders s) {now : ℕ} (hstep : s.stamp orders now = some s') :
    Paced orders s' := by
  obtain ⟨⟨-, hlt⟩, hset⟩ := Option.ite_none_right_eq_some.mp hstep
  obtain rfl := Option.some.inj hset
  exact ⟨h.published_eq, h.next_le, h.next_of_done,
    fun _ => hlt, h.local_le, h.draining_le, h.reload, h.exited⟩

/-- A publish of an order that has its time. -/
theorem publish_eq_some (h : s.publish orders = some s') :
    s.stamped = true ∧ s.nextOrder < orders.length ∧ ∃ journal,
      journal.publishedIndex = s.nextOrder + 1 ∧
      s' = { s with journal, nextOrder := s.nextOrder + 1, stamped := false } := by
  unfold LatencyRun.publish at h
  split at h
  case h_1 order hstamped horder =>
    obtain ⟨hlt, -⟩ := List.getElem?_eq_some_iff.mp horder
    exact ⟨hstamped, hlt, _, rfl, (Option.some.inj h).symm⟩
  case h_2 => contradiction

theorem Paced.publish (h : Paced orders s) (hstep : s.publish orders = some s') :
    Paced orders s' := by
  obtain ⟨-, hlt, journal, hindex, rfl⟩ := publish_eq_some hstep
  exact ⟨hindex, hlt, fun hdone => absurd (h.next_of_done hdone) hlt.ne, nofun,
    h.local_le.trans (Nat.le_succ _), fun pub hpc => (h.draining_le pub hpc).trans (Nat.le_succ _),
    h.reload, h.exited⟩

theorem Paced.consume (h : Paced orders s) {now : ℕ} (hstep : Consumes s now s') :
    Paced orders s' := by
  cases hstep with
  | foundNothing | again =>
    exact ⟨h.published_eq, h.next_le, h.next_of_done, h.next_lt, h.local_le, nofun, nofun, nofun⟩
  | foundMore =>
    refine ⟨h.published_eq, h.next_le, h.next_of_done, h.next_lt, h.local_le, fun pub hpub => ?_,
      nofun, nofun⟩
    exact (LatencyPc.draining.inj hpub).symm.trans_le h.published_eq.le
  | foundDone hpc hdone =>
    exact ⟨h.published_eq, h.next_le, h.next_of_done, h.next_lt, h.local_le, nofun,
      fun _ => hdone, nofun⟩
  | left hpc hall =>
    -- `done` is set, so the index that is loaded is the last one
    have hdone := h.reload hpc
    have hindex : s.nextOrder ≤ s.localSeq := h.published_eq ▸ hall
    exact ⟨h.published_eq, h.next_le, h.next_of_done, h.next_lt, h.local_le, nofun, nofun,
      fun _ => ⟨(h.local_le.antisymm hindex).trans (h.next_of_done hdone), hdone⟩⟩
  | visited pub hpc hlt =>
    refine ⟨h.published_eq, h.next_le, h.next_of_done, h.next_lt,
      hlt.trans_le (h.draining_le pub hpc), h.draining_le, h.reload, fun hexited => ?_⟩
    cases hpc.symm.trans hexited

theorem Paced.step (h : Paced orders s) {a : LatencyAction} (hstep : s.step orders a = some s') :
    Paced orders s' := by
  cases a with
  | stamp now => exact h.stamp hstep
  | publish => exact h.publish hstep
  | setDone =>
    obtain ⟨⟨hall, -⟩, hset⟩ := Option.ite_none_right_eq_some.mp hstep
    obtain rfl := Option.some.inj hset
    exact ⟨h.published_eq, h.next_le, fun _ => hall, h.next_lt, h.local_le, h.draining_le,
      fun _ => rfl, fun hexited => ⟨(h.exited hexited).1, rfl⟩⟩
  | consume now => exact h.consume (consumes_of_consume hstep)

theorem run_paced {actions : List LatencyAction} (hrun : run (step orders) start actions = some s) :
    Paced orders s :=
  run_invariant (fun _ _ _ h hstep => h.step hstep) (start_paced orders) hrun

/-- When the consumer has left, every order has its time. -/
theorem Paced.stampedUpTo_of_exited (h : Paced orders s) (hexited : s.pc = .exited) :
    s.stampedUpTo = orders.length := by
  have hnext := h.next_of_done (h.exited hexited).2
  have hopen : ¬ s.stamped = true := fun hstamped => (h.next_lt hstamped).ne hnext
  rw [stampedUpTo, if_neg hopen, hnext, Nat.add_zero]

/-! ## The readings of the clock -/

/-- The consumer takes no reading and moves on, or it takes one and visits a message. -/
theorem reading_cases {now : ℕ} (h : Consumes s now s') :
    (s.consumeReading (.consume now) = [] ∧ ∃ pc, s' = { s with pc := pc }) ∨
      (s.consumeReading (.consume now) = [now] ∧
        (∃ pub, s.pc = .draining pub ∧ s.localSeq < pub) ∧
        s' = { s with
          consumeTimes := Function.update s.consumeTimes s.localSeq now
          localSeq := s.localSeq + 1 }) := by
  cases h with
  | foundNothing hpc | foundMore hpc | foundDone hpc | left hpc =>
    exact .inl ⟨by rw [consumeReading, hpc], _, rfl⟩
  | again hpc =>
    refine .inl ⟨?_, _, rfl⟩
    obtain hpc | hpc | ⟨pub, hpc, hdrained⟩ := hpc
    · rw [consumeReading, hpc]
    · rw [consumeReading, hpc]
    · simp only [consumeReading, hpc, if_neg hdrained]
  | visited pub hpc hlt =>
    exact .inr ⟨by simp only [consumeReading, hpc, if_pos hlt], ⟨pub, hpc, hlt⟩, rfl⟩

/-- The times of the orders that have one. -/
def stampTimes (s : LatencyRun) : List ℕ := (List.range s.stampedUpTo).map s.publishTimes

/-- The times of the messages that are visited. -/
def visitTimes (s : LatencyRun) : List ℕ := (List.range s.localSeq).map s.consumeTimes

theorem stampTimes_step {a : LatencyAction} (hstep : s.step orders a = some s') :
    s'.stampTimes = s.stampTimes ++ s.publishReading a := by
  cases a with
  | stamp now =>
    obtain ⟨⟨hopen, -⟩, hset⟩ := Option.ite_none_right_eq_some.mp hstep
    obtain rfl := Option.some.inj hset
    rw [stampTimes, stampTimes, stampedUpTo, stampedUpTo, if_pos rfl, hopen]
    exact map_range_update s.publishTimes s.nextOrder now
  | publish =>
    obtain ⟨hstamped, -, journal, -, rfl⟩ := publish_eq_some hstep
    rw [stampTimes, stampTimes, stampedUpTo, stampedUpTo, hstamped]
    exact (List.append_nil _).symm
  | setDone =>
    obtain ⟨-, hset⟩ := Option.ite_none_right_eq_some.mp hstep
    obtain rfl := Option.some.inj hset
    exact (List.append_nil _).symm
  | consume now =>
    cases consumes_of_consume hstep <;> exact (List.append_nil _).symm

theorem visitTimes_step {a : LatencyAction} (hstep : s.step orders a = some s') :
    s'.visitTimes = s.visitTimes ++ s.consumeReading a := by
  cases a with
  | stamp now | setDone =>
    obtain ⟨-, hset⟩ := Option.ite_none_right_eq_some.mp hstep
    obtain rfl := Option.some.inj hset
    exact (List.append_nil _).symm
  | publish =>
    obtain ⟨-, -, journal, -, rfl⟩ := publish_eq_some hstep
    exact (List.append_nil _).symm
  | consume now =>
    obtain ⟨hreading, hvisits⟩ | ⟨hreading, -, hvisits⟩ := reading_cases (consumes_of_consume hstep)
    · rw [hreading, List.append_nil]
      obtain ⟨pc, rfl⟩ := hvisits
      rfl
    · rw [hreading]
      obtain rfl := hvisits
      exact map_range_update s.consumeTimes s.localSeq now

/-- The times that are noted are readings taken so far, and where the readings never run back no
message is visited before its time. -/
structure Noted (readings : List ℕ) (s : LatencyRun) : Prop where
  taken : ∀ i < s.stampedUpTo, s.publishTimes i ∈ readings
  ordered : readings.Pairwise (· ≤ ·) → ∀ i < s.localSeq, s.publishTimes i ≤ s.consumeTimes i

theorem start_noted : Noted [] start where
  taken := fun _ hi => absurd hi (Nat.not_lt_zero _)
  ordered := fun _ _ hi => absurd hi (Nat.not_lt_zero _)

theorem Noted.stamp {readings : List ℕ} (h : Noted readings s) (hpaced : Paced orders s) {now : ℕ}
    (hstep : s.stamp orders now = some s') : Noted (readings ++ [now]) s' := by
  obtain ⟨⟨hopen, -⟩, hset⟩ := Option.ite_none_right_eq_some.mp hstep
  obtain rfl := Option.some.inj hset
  refine ⟨fun i hi => ?_, fun hordered i hi => ?_⟩
  · obtain hlt | rfl := Nat.lt_succ_iff_lt_or_eq.mp hi
    · have hkept := h.taken i (hlt.trans_le (Nat.le_add_right _ _))
      dsimp only
      rw [Function.update_of_ne hlt.ne]
      exact List.mem_append_left _ hkept
    · dsimp only
      rw [Function.update_self]
      exact List.mem_append_right _ List.mem_cons_self
  · have hlt : i < s.nextOrder := Nat.lt_of_lt_of_le hi hpaced.local_le
    dsimp only
    rw [Function.update_of_ne hlt.ne]
    exact h.ordered (List.pairwise_append.mp hordered).1 i hi

/-- A message that is visited has its time, which is a reading taken before. -/
theorem Noted.visit {readings : List ℕ} (h : Noted readings s) {now : ℕ}
    (hstamped : s.localSeq < s.stampedUpTo) :
    Noted (readings ++ [now]) { s with
      consumeTimes := Function.update s.consumeTimes s.localSeq now
      localSeq := s.localSeq + 1 } where
  taken := fun i hi => List.mem_append_left _ (h.taken i hi)
  ordered := fun hordered i hi => by
    obtain ⟨hbefore, -, hnow⟩ := List.pairwise_append.mp hordered
    dsimp only
    obtain hlt | rfl := Nat.lt_succ_iff_lt_or_eq.mp hi
    · rw [Function.update_of_ne hlt.ne]
      exact h.ordered hbefore i hlt
    · rw [Function.update_self]
      exact hnow _ (h.taken _ hstamped) now List.mem_cons_self

theorem Noted.step {readings : List ℕ} (h : Noted readings s) (hpaced : Paced orders s)
    {a : LatencyAction} (hstep : s.step orders a = some s') :
    Noted (readings ++ s.clockReading a) s' := by
  have hsame : Noted (readings ++ []) s := by
    rw [List.append_nil]
    exact h
  cases a with
  | stamp now => exact h.stamp hpaced hstep
  | publish =>
    obtain ⟨hstamped, -, journal, -, rfl⟩ := publish_eq_some hstep
    refine ⟨fun i hi => hsame.taken i ?_, hsame.ordered⟩
    rw [stampedUpTo, if_pos hstamped]
    exact hi
  | setDone =>
    obtain ⟨-, hset⟩ := Option.ite_none_right_eq_some.mp hstep
    obtain rfl := Option.some.inj hset
    exact ⟨hsame.taken, hsame.ordered⟩
  | consume now =>
    change Noted (readings ++ s.consumeReading (.consume now)) s'
    obtain ⟨hreading, hkept⟩ | ⟨hreading, ⟨pub, hpc, hlt⟩, rfl⟩ :=
      reading_cases (consumes_of_consume hstep)
    · rw [hreading]
      obtain ⟨pc, rfl⟩ := hkept
      exact ⟨hsame.taken, hsame.ordered⟩
    · rw [hreading]
      have hpublished := hlt.trans_le (hpaced.draining_le pub hpc)
      exact h.visit (hpublished.trans_le (Nat.le_add_right _ _))

end Invariant

/-! ## The report -/

/-- What is reported is about every message: each was visited; the two times of each are the
readings taken, in order, when it was published and when it was visited; a difference is missing
exactly where the second is not after the first, and where the readings never run back it is at
least as late; and the percentiles are order statistics of the differences. -/
structure ReportsAll (orders : List DecodedOrder) (actions : List LatencyAction) (s : LatencyRun) :
    Prop where
  visited : s.localSeq = orders.length
  publishTimes : (List.range orders.length).map s.publishTimes =
    outputs (step orders) publishReading start actions
  consumeTimes : (List.range orders.length).map s.consumeTimes =
    outputs (step orders) consumeReading start actions
  counted : (s.latencies orders).length +
    (List.range orders.length).countP (fun i => s.consumeTimes i ≤ s.publishTimes i) = orders.length
  ordered : (outputs (step orders) clockReading start actions).Pairwise (· ≤ ·) →
    ∀ i < orders.length, s.publishTimes i ≤ s.consumeTimes i
  percentile : s.latencies orders ≠ [] → ∀ scaled, ∃ ns,
    pct ((s.latencies orders).mergeSort (· ≤ ·)) scaled = some ns ∧
      OrderStatistics.HasRank (s.latencies orders)
        (min scaled ((s.latencies orders).length - 1)) ns

/-- The sorted list has the reported entry at the index that `pct` takes. -/
theorem exists_pct {l : List ℕ} (hne : l ≠ []) (scaled : ℕ) :
    ∃ ns, pct (l.mergeSort (· ≤ ·)) scaled = some ns ∧
      OrderStatistics.HasRank l (min scaled (l.length - 1)) ns := by
  have hpos := List.length_pos_iff.mpr hne
  have hidx : min scaled (l.length - 1) < (l.mergeSort (· ≤ ·)).length := by
    rw [List.length_mergeSort]
    omega
  refine ⟨(l.mergeSort (· ≤ ·))[min scaled (l.length - 1)], ?_, ?_⟩
  · have hclamp : (if scaled ≥ l.length then l.length - 1 else scaled) =
        min scaled (l.length - 1) := by
      split <;> omega
    rw [pct, List.length_mergeSort, hclamp]
    exact List.getElem?_eq_getElem hidx
  · exact (OrderStatistics.hasRank_getElem (List.pairwise_mergeSort' _ _) hidx).perm
      (List.mergeSort_perm l (· ≤ ·))

/-- A difference is kept or its second time is not after the first. -/
theorem length_latencies_add_countP (orders : List DecodedOrder) (s : LatencyRun) :
    (s.latencies orders).length +
      (List.range orders.length).countP (fun i => s.consumeTimes i ≤ s.publishTimes i) =
        orders.length := by
  have htotal := (List.range orders.length).length_eq_countP_add_countP
    fun i => decide (s.publishTimes i < s.consumeTimes i)
  rw [List.length_range] at htotal
  rw [latencies, List.length_map, ← List.countP_eq_length_filter]
  simpa only [decide_eq_true_eq, not_lt] using htotal.symm

/-- In every run of the latency experiment whose consumer has left its loop, whatever the clock
reads, the report is about every message. -/
theorem latency_reports_all {data : TestData} {s : LatencyRun} {actions : List LatencyAction}
    (hrun : run (LatencyRun.step (measured data)) start actions = some s)
    (hexited : s.pc = .exited) : ReportsAll (measured data) actions s := by
  have hpaced := run_paced hrun
  obtain ⟨hvisited, -⟩ := hpaced.exited hexited
  have hstamps := record_eq_outputs stampTimes (fun _ _ _ => stampTimes_step) hrun
  have hvisits := record_eq_outputs visitTimes (fun _ _ _ => visitTimes_step) hrun
  rw [stampTimes, hpaced.stampedUpTo_of_exited hexited] at hstamps
  rw [visitTimes, hvisited] at hvisits
  obtain ⟨-, hnoted⟩ := outputs_invariant clockReading
    (fun readings s => Paced (measured data) s ∧ Noted readings s)
    (fun _ _ _ _ h hstep => ⟨h.1.step hstep, h.2.step h.1 hstep⟩)
    ⟨start_paced (measured data), start_noted⟩ hrun
  exact ⟨hvisited, hstamps, hvisits, length_latencies_add_countP _ s,
    fun hordered i hi => hnoted.ordered hordered i (hvisited.symm ▸ hi), fun hne => exists_pct hne⟩

/-- Two orders. -/
def twoMessages : TestData where
  orders := [⟨.add, 1, 5, 100, 10, sideBuy, 0⟩, ⟨.add, 2, 5, 100, 10, sideBuy, 0⟩]

/-- The first order is visited 5 after it was published, the second at a time before its own. -/
def twoVisits : List LatencyAction :=
  [.stamp 10, .publish, .consume 12, .consume 15, .stamp 20, .publish, .consume 20, .consume 20,
    .consume 18, .setDone, .consume 21, .consume 21, .consume 21, .consume 22]

/-- Only the first difference is kept. -/
theorem twoVisits_report :
    ∃ s, run (LatencyRun.step (measured twoMessages)) start twoVisits = some s ∧
      s.latencies (measured twoMessages) = [5] ∧ ReportsAll (measured twoMessages) twoVisits s := by
  have hends : (run (LatencyRun.step (measured twoMessages)) start twoVisits).any
      (fun s => s.latencies (measured twoMessages) = [5] ∧ s.pc = .exited) = true := by
    decide +kernel
  obtain ⟨s, hrun, hboth⟩ := (Option.any_eq_true _ _).mp hends
  obtain ⟨hlatencies, hexited⟩ := of_decide_eq_true hboth
  exact ⟨s, hrun, hlatencies, latency_reports_all hrun hexited⟩

end LatencyRun

end NanoRing
