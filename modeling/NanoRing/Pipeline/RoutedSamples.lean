import NanoRing.Pipeline.LatencyTracker
import NanoRing.Pipeline.RoutedProgress

/-!
# The latency samples of the routed pipeline

With `measure_latency` set the producer stamps every order before it routes it, and book thread 0
takes a sample at every 1000th order that it applies. An order does not carry its sequence number
into the queue, so the stamp that a sample is taken against is an estimate: that of the number
applied times the number of threads. It is the stamp of some order, but it may not be written yet,
and then the sample is the whole time since the start. Nothing keeps the readings of the clock in
order; where each is later than those before it, no sample that is due is left out.
-/

namespace NanoRing

open Schedule

/-- The pipeline with its time stamps; `stamped` while the next order has its stamp and is not
routed yet. -/
structure RoutedSamplesRun where
  pipeline : RoutedRun
  publishTs : ℕ → ℕ
  stamped : Bool
  latency : LatencyTracker

/-- The steps of the pipeline; a step that may read the clock is given its reading. -/
inductive RoutedSamplesAction
  | stamp (now : ℕ)
  | route
  | thread (t now : ℕ)
deriving DecidableEq

namespace RoutedSamplesRun

def start : RoutedSamplesRun where
  pipeline := .start
  publishTs := fun _ => 0
  stamped := false
  latency := .empty

/-- The order that the producer routes next, when it is at the head of its loop. -/
def routesNext (orders : OrderArray) (pipeline : RoutedRun) : Option ℕ :=
  match pipeline.router with
  | .routing i => if i < orders.1.length then some i else none
  | _ => none

/-- `publish_ts[i] = now`, before order `i` is routed. -/
def stamp (orders : OrderArray) (s : RoutedSamplesRun) (now : ℕ) : Option RoutedSamplesRun :=
  match routesNext orders s.pipeline with
  | some i =>
    if s.stamped then none
    else some { s with publishTs := Function.update s.publishTs i now, stamped := true }
  | none => none

/-- The index of the stamp that a sample is taken against; the product is of type `size_t`. -/
def estimate (orders : OrderArray) (numThreads localCount : ℕ) : ℕ :=
  min (localCount * numThreads % 2 ^ 64) (orders.1.length - 1)

/-- The tracker after a step of thread `t`, which samples after it has counted an order. -/
def sample (orders : OrderArray) (numThreads : ℕ) (s : RoutedSamplesRun) (t now : ℕ) :
    LatencyTracker :=
  match (s.pipeline.consumers t).pc with
  | .applying _ =>
    let localCount := (s.pipeline.consumers t).localCount + 1
    if t = 0 ∧ localCount % 1000 = 0 then
      let pubNs := s.publishTs (estimate orders numThreads localCount)
      if now > pubNs then s.latency.record (now - pubNs) else s.latency
    else s.latency
  | _ => s.latency

def step (orders : OrderArray) (numThreads : ℕ) (s : RoutedSamplesRun) :
    RoutedSamplesAction → Option RoutedSamplesRun
  | .stamp now => s.stamp orders now
  | .route =>
    if (routesNext orders s.pipeline).isSome ∧ s.stamped = false then none
    else
      (s.pipeline.routeStep orders numThreads).map fun pipeline =>
        { s with pipeline := pipeline, stamped := false }
  | .thread t now =>
    if t < numThreads then
      (s.pipeline.threadStep t).map fun pipeline =>
        { s with pipeline := pipeline, latency := s.sample orders numThreads t now }
    else none

/-- The step of the unmeasured pipeline. -/
def forget : RoutedSamplesAction → Option RoutedAction
  | .stamp _ => none
  | .route => some .route
  | .thread t _ => some (.thread t)

/-- The reading that a step stamps an order with. -/
def reading : RoutedSamplesAction → Option ℕ
  | .stamp now => some now
  | .route | .thread _ _ => none

/-- The readings that a step takes of the clock. -/
def clock (s : RoutedSamplesRun) : RoutedSamplesAction → List ℕ
  | .stamp now => [now]
  | .route => []
  | .thread t now =>
    match (s.pipeline.consumers t).pc with
    | .applying _ =>
      if t = 0 ∧ ((s.pipeline.consumers t).localCount + 1) % 1000 = 0 then [now] else []
    | _ => []

variable {orders : OrderArray} {numThreads : ℕ} {s s' : RoutedSamplesRun}

/-- Measuring changes no step of the pipeline. -/
theorem step_seen {a : RoutedSamplesAction} {a' : RoutedAction}
    (h : s.step orders numThreads a = some s') (hforget : forget a = some a') :
    s.pipeline.step orders numThreads a' = some s'.pipeline := by
  cases a with
  | stamp now => contradiction
  | route =>
    obtain rfl := Option.some.inj hforget
    obtain ⟨pipeline, hstep, rfl⟩ := Option.map_eq_some_iff.mp (Option.ite_none_left_eq_some.mp h).2
    exact hstep
  | thread t now =>
    obtain rfl := Option.some.inj hforget
    obtain ⟨ht, hthread⟩ := Option.ite_none_right_eq_some.mp h
    obtain ⟨pipeline, hstep, rfl⟩ := Option.map_eq_some_iff.mp hthread
    exact (if_pos ht).trans hstep

/-- A stamp is written at the head of the loop, and nothing else changes. -/
theorem stamp_cases {now : ℕ} (h : s.stamp orders now = some s') :
    ∃ i, s.pipeline.router = .routing i ∧ i < orders.1.length ∧ s.stamped = false ∧
      s' = { s with publishTs := Function.update s.publishTs i now, stamped := true } := by
  unfold stamp routesNext at h
  split at h
  · rename_i i hnext
    split at hnext
    · rename_i i' hrouter
      obtain ⟨hlt, hsame⟩ := Option.ite_none_right_eq_some.mp hnext
      obtain rfl := Option.some.inj hsame
      split at h
      · contradiction
      · rename_i hopen
        exact ⟨i', hrouter, hlt, Bool.eq_false_of_not_eq_true hopen, (Option.some.inj h).symm⟩
    · contradiction
  · contradiction

/-- The stamps that are written are those of the orders that are routed, and of the next one when it
is about to be. -/
structure Stamped (orders : OrderArray) (readings : List ℕ) (s : RoutedSamplesRun) : Prop where
  length_eq : readings.length =
    RoutedRun.routedUpTo orders s.pipeline + if s.stamped then 1 else 0
  publishTs : ∀ i, s.publishTs i = readings.getD i 0
  ahead : s.stamped = true → (routesNext orders s.pipeline).isSome = true

/-- An array that is written in order holds the list of what is written. -/
theorem update_length_eq_getD {array : ℕ → ℕ} {written : List ℕ}
    (h : ∀ i, array i = written.getD i 0) {value : ℕ} (j : ℕ) :
    Function.update array written.length value j = (written ++ [value]).getD j 0 := by
  rcases Nat.lt_trichotomy j written.length with hbefore | rfl | hafter
  · rw [Function.update_of_ne hbefore.ne, h, List.getD_append _ _ _ _ hbefore]
  · rw [Function.update_self, List.getD_append_right _ _ _ _ le_rfl, Nat.sub_self]
    rfl
  · rw [Function.update_of_ne hafter.ne', h, List.getD_eq_default _ _ hafter.le,
      List.getD_eq_default]
    rw [List.length_append]
    exact hafter

theorem routesNext_eq_some_iff {pipeline : RoutedRun} {i : ℕ} :
    routesNext orders pipeline = some i ↔ pipeline.router = .routing i ∧ i < orders.1.length := by
  unfold routesNext
  cases pipeline.router with
  | routing i' =>
    rw [Option.ite_none_right_eq_some, Option.some_inj, RouterPc.routing.injEq]
    constructor
    · rintro ⟨hlt, rfl⟩
      exact ⟨rfl, hlt⟩
    · rintro ⟨rfl, hlt⟩
      exact ⟨hlt, rfl⟩
  | pushing | flushing | finished => simp

/-- A step of the producer routes the order at the head of its loop, if it is there. -/
theorem routedUpTo_of_routeMoves {pipeline pipeline' : RoutedRun}
    (h : RoutedRun.RouteMoves orders numThreads pipeline pipeline')
    (hbatched : RoutedRun.Batched orders numThreads pipeline) :
    RoutedRun.routedUpTo orders pipeline' =
      RoutedRun.routedUpTo orders pipeline +
        if (routesNext orders pipeline).isSome then 1 else 0 := by
  have hwithin := hbatched.within
  cases h with
  | append i order hrouter horder hroom =>
    obtain ⟨hlt, -⟩ := List.getElem?_eq_some_iff.mp horder
    rw [routesNext_eq_some_iff.mpr ⟨hrouter, hlt⟩, RoutedRun.routedUpTo, RoutedRun.routedUpTo, hrouter]
    rfl
  | fill i order hrouter horder hfull =>
    obtain ⟨hlt, -⟩ := List.getElem?_eq_some_iff.mp horder
    rw [routesNext_eq_some_iff.mpr ⟨hrouter, hlt⟩, RoutedRun.routedUpTo, RoutedRun.routedUpTo, hrouter]
    rfl
  | startFlush i hrouter hend =>
    rw [hrouter] at hwithin
    have hlast := List.getElem?_eq_none_iff.mp hend
    have hnone : routesNext orders pipeline = none := by
      rw [routesNext, hrouter]
      exact if_neg (Nat.not_lt.mpr hlast)
    rw [hnone, RoutedRun.routedUpTo, RoutedRun.routedUpTo, hrouter]
    exact le_antisymm hlast hwithin
  | pushFull i shard j msg queue hrouter | clear i shard j hrouter =>
    rw [routesNext, RoutedRun.routedUpTo, RoutedRun.routedUpTo, hrouter]
    rfl
  | pushRest shard j msg queue hrouter | nextShard shard j hrouter | finish shard j hrouter =>
    rw [routesNext, RoutedRun.routedUpTo, RoutedRun.routedUpTo, hrouter]
    rfl

theorem Stamped.step {readings : List ℕ} (h : Stamped orders readings s)
    (hbatched : RoutedRun.Batched orders numThreads s.pipeline) {a : RoutedSamplesAction}
    (hstep : s.step orders numThreads a = some s') :
    Stamped orders (readings ++ (reading a).toList) s' := by
  cases a with
  | stamp now =>
    obtain ⟨i, hrouter, hlt, hopen, rfl⟩ := stamp_cases hstep
    have hlength : readings.length = i := by
      rw [h.length_eq, hopen, RoutedRun.routedUpTo, hrouter]
      rfl
    refine ⟨?_, fun j => ?_, fun _ => ?_⟩
    · change (readings ++ [now]).length = RoutedRun.routedUpTo orders s.pipeline + 1
      rw [List.length_append, hlength, RoutedRun.routedUpTo, hrouter]
      rfl
    · exact hlength ▸ update_length_eq_getD h.publishTs j
    · change (routesNext orders s.pipeline).isSome = true
      rw [routesNext_eq_some_iff.mpr ⟨hrouter, hlt⟩]
      rfl
  | route =>
    obtain ⟨hready, hroute⟩ := Option.ite_none_left_eq_some.mp hstep
    obtain ⟨pipeline, hmove, rfl⟩ := Option.map_eq_some_iff.mp hroute
    have hstamped : s.stamped = (routesNext orders s.pipeline).isSome := by
      cases hnext : (routesNext orders s.pipeline).isSome with
      | true => exact Bool.eq_true_of_not_eq_false fun hopen => hready ⟨hnext, hopen⟩
      | false => exact Bool.eq_false_of_not_eq_true fun hset => by simp [h.ahead hset] at hnext
    refine ⟨?_, fun j => ?_, fun hset => absurd hset Bool.false_ne_true⟩
    · change (readings ++ []).length = RoutedRun.routedUpTo orders pipeline + 0
      rw [List.append_nil, h.length_eq, hstamped,
        routedUpTo_of_routeMoves (RoutedRun.routeMoves_of_routeStep hmove) hbatched, Nat.add_zero]
    · exact (h.publishTs j).trans (congrArg (·.getD j 0) (List.append_nil _).symm)
  | thread t now =>
    obtain ⟨-, hthread⟩ := Option.ite_none_right_eq_some.mp hstep
    obtain ⟨pipeline, hmove, rfl⟩ := Option.map_eq_some_iff.mp hthread
    obtain ⟨hrouter, -, -⟩ := (RoutedRun.threadMoves_of_threadStep hmove).producer_eq
    refine ⟨?_, fun j => ?_, fun hset => ?_⟩
    · change (readings ++ []).length = RoutedRun.routedUpTo orders pipeline + if s.stamped then 1 else 0
      rw [List.append_nil, h.length_eq, RoutedRun.routedUpTo, RoutedRun.routedUpTo, hrouter]
    · exact (h.publishTs j).trans (congrArg (·.getD j 0) (List.append_nil _).symm)
    · have hnext := h.ahead hset
      rw [routesNext] at hnext ⊢
      rw [hrouter]
      exact hnext

/-- A thread counts an order only when it applies one. -/
theorem localCount_of_threadMoves {pipeline pipeline' : RoutedRun} {t : ℕ}
    (h : RoutedRun.ThreadMoves pipeline t pipeline') :
    (pipeline'.consumers t).localCount = (pipeline.consumers t).localCount +
      (RoutedRun.inHand (pipeline.consumers t)).length := by
  cases h with
  | apply order hpc =>
    rw [RoutedRun.setConsumer_self, RoutedRun.inHand, hpc]
    rfl
  | leave hpc hempty =>
    change ((pipeline.setConsumer t _).consumers t).localCount = _
    rw [RoutedRun.setConsumer_self, RoutedRun.inHand, hpc]
    rfl
  | pop order queue hpc hpop =>
    rw [RoutedRun.setConsumer_self, RoutedRun.inHand, hpc]
    rfl
  | foundEmpty hpc | foundDone hpc | again hpc | refilled hpc =>
    rw [RoutedRun.setConsumer_self, RoutedRun.inHand, hpc]
    rfl

/-- The index of the stamp that a sample of the order in hand is taken against. -/
def nextEstimate (orders : OrderArray) (numThreads : ℕ) (s : RoutedSamplesRun) : ℕ :=
  estimate orders numThreads ((s.pipeline.consumers 0).localCount + 1)

/-- A step samples nothing, or thread 0 reads the clock after it has counted a 1000th order. -/
theorem sample_cases (orders : OrderArray) (numThreads : ℕ) (s : RoutedSamplesRun) (t now : ℕ) :
    (s.sample orders numThreads t now = s.latency ∧
      (t = 0 → ((s.pipeline.consumers t).localCount +
        (RoutedRun.inHand (s.pipeline.consumers t)).length) / 1000 =
          (s.pipeline.consumers t).localCount / 1000)) ∨
      ∃ order, t = 0 ∧ (s.pipeline.consumers 0).pc = .applying order ∧
        ((s.pipeline.consumers 0).localCount + 1) % 1000 = 0 ∧ s.clock (.thread 0 now) = [now] ∧
        s.sample orders numThreads 0 now =
          let pubNs := s.publishTs (s.nextEstimate orders numThreads)
          if now > pubNs then s.latency.record (now - pubNs) else s.latency := by
  cases hpc : (s.pipeline.consumers t).pc with
  | applying order =>
    by_cases hsampled : t = 0 ∧ ((s.pipeline.consumers t).localCount + 1) % 1000 = 0
    · obtain ⟨rfl, hthousandth⟩ := hsampled
      refine .inr ⟨order, rfl, hpc, hthousandth, ?_, ?_⟩
      · simp only [clock, hpc, hthousandth, and_self, if_true]
      · simp only [sample, hpc, hthousandth, and_self, if_true]
        rfl
    · refine .inl ⟨?_, fun hzero => ?_⟩
      · simp only [sample, hpc, if_neg hsampled]
      · have hother : ((s.pipeline.consumers t).localCount + 1) % 1000 ≠ 0 :=
          fun hthousandth => hsampled ⟨hzero, hthousandth⟩
        rw [RoutedRun.inHand, hpc, List.length_singleton]
        omega
  | popping | testDone | testAvailable | exited =>
    refine .inl ⟨by simp only [sample, hpc], fun _ => ?_⟩
    rw [RoutedRun.inHand, hpc]
    rfl

/-- What a step of the measured pipeline does to the tracker. -/
inductive Records (orders : OrderArray) (numThreads : ℕ) (s : RoutedSamplesRun) :
    RoutedSamplesAction → RoutedSamplesRun → Prop
  | nothing (a : RoutedSamplesAction) (s' : RoutedSamplesRun) (hlatency : s'.latency = s.latency)
      (hcount : (s'.pipeline.consumers 0).localCount / 1000 =
        (s.pipeline.consumers 0).localCount / 1000) : Records orders numThreads s a s'
  | sampled (now : ℕ) (order : DecodedOrder) (s' : RoutedSamplesRun) (hthread : 0 < numThreads)
      (hpc : (s.pipeline.consumers 0).pc = .applying order)
      (hthousandth : ((s.pipeline.consumers 0).localCount + 1) % 1000 = 0)
      (hclock : s.clock (.thread 0 now) = [now])
      (hcount : (s'.pipeline.consumers 0).localCount = (s.pipeline.consumers 0).localCount + 1)
      (hlatency : s'.latency =
        let pubNs := s.publishTs (s.nextEstimate orders numThreads)
        if now > pubNs then s.latency.record (now - pubNs) else s.latency) :
      Records orders numThreads s (.thread 0 now) s'

theorem records_of_step {a : RoutedSamplesAction} (h : s.step orders numThreads a = some s') :
    Records orders numThreads s a s' := by
  cases a with
  | stamp now =>
    obtain ⟨i, -, -, -, rfl⟩ := stamp_cases h
    exact .nothing _ _ rfl rfl
  | route =>
    have hroute := step_seen h rfl
    obtain ⟨pipeline, -, rfl⟩ := Option.map_eq_some_iff.mp (Option.ite_none_left_eq_some.mp h).2
    refine .nothing _ _ rfl ?_
    cases RoutedRun.routeMoves_of_routeStep hroute <;> rfl
  | thread t now =>
    obtain ⟨ht, hthread⟩ := Option.ite_none_right_eq_some.mp h
    obtain ⟨pipeline, hmove, rfl⟩ := Option.map_eq_some_iff.mp hthread
    have hmoves := RoutedRun.threadMoves_of_threadStep hmove
    have hcounted := localCount_of_threadMoves hmoves
    obtain ⟨hnone, hsame⟩ | ⟨order, rfl, hpc, hthousandth, hclock, hrecord⟩ :=
      sample_cases orders numThreads s t now
    · refine .nothing _ _ hnone ?_
      by_cases hzero : 0 = t
      · subst hzero
        exact (congrArg (· / 1000) hcounted).trans (hsame rfl)
      · exact congrArg (fun consumer => RoutedConsumer.localCount consumer / 1000)
          (hmoves.other_eq hzero).1
    · rw [RoutedRun.inHand, hpc, List.length_singleton] at hcounted
      exact .sampled now order _ ht hpc hthousandth hclock hcounted hrecord

/-- A step makes at most the sample that is due. -/
theorem Records.count_le {a : RoutedSamplesAction} (h : Records orders numThreads s a s')
    (hle : s.latency.count ≤ (s.pipeline.consumers 0).localCount / 1000) :
    s'.latency.count ≤ (s'.pipeline.consumers 0).localCount / 1000 := by
  cases h with
  | nothing _ _ hlatency hcount => rwa [hlatency, hcount]
  | sampled now order _ _ _ hthousandth _ hcount hlatency =>
    have hmade : s'.latency.count ≤ s.latency.count + 1 := by
      rw [hlatency]
      dsimp only
      split
      · exact LatencyTracker.count_record_le _ _
      · exact Nat.le_succ _
    omega

/-- The stamps are readings, and where every reading is later than those before it no sample that is
due is left out until the buffer is full. -/
structure Clocked (readings : List ℕ) (s : RoutedSamplesRun) : Prop where
  publishTs : ∀ i, s.publishTs i ∈ 0 :: readings
  count_eq : (0 :: readings).Pairwise (· < ·) →
    s.latency.count = min ((s.pipeline.consumers 0).localCount / 1000) maxSamples

theorem publishTs_of_step {a : RoutedSamplesAction} (h : s.step orders numThreads a = some s')
    (i : ℕ) : s'.publishTs i = s.publishTs i ∨ s'.publishTs i ∈ s.clock a := by
  cases a with
  | stamp now =>
    obtain ⟨j, -, -, -, rfl⟩ := stamp_cases h
    by_cases hij : i = j
    · subst hij
      exact .inr (List.mem_singleton.mpr (Function.update_self _ _ _))
    · exact .inl (Function.update_of_ne hij _ _)
  | route =>
    obtain ⟨_, -, rfl⟩ := Option.map_eq_some_iff.mp (Option.ite_none_left_eq_some.mp h).2
    exact .inl rfl
  | thread t now =>
    obtain ⟨_, -, rfl⟩ := Option.map_eq_some_iff.mp (Option.ite_none_right_eq_some.mp h).2
    exact .inl rfl

theorem Clocked.step {readings : List ℕ} (h : Clocked readings s) {a : RoutedSamplesAction}
    (hstep : s.step orders numThreads a = some s') : Clocked (readings ++ s.clock a) s' where
  publishTs := fun i => by
    obtain hkept | hwritten := publishTs_of_step hstep i
    · rw [hkept, ← List.cons_append]
      exact List.mem_append_left _ (h.publishTs i)
    · exact List.mem_cons_of_mem _ (List.mem_append_right _ hwritten)
  count_eq := fun hincreasing => by
    rw [← List.cons_append, List.pairwise_append] at hincreasing
    obtain ⟨hbefore, -, hlater⟩ := hincreasing
    have hcounted := h.count_eq hbefore
    cases records_of_step hstep with
    | nothing _ _ hlatency hcount => rwa [hlatency, hcount]
    | sampled now order _ _ _ hthousandth hclock hcount hlatency =>
      have hnow := hlater _ (h.publishTs (s.nextEstimate orders numThreads)) now
        (hclock ▸ List.mem_cons_self)
      rw [hlatency, hcount]
      dsimp only
      have hdue : ((s.pipeline.consumers 0).localCount + 1) / 1000 =
          (s.pipeline.consumers 0).localCount / 1000 + 1 := by omega
      have hfull (n limit : ℕ) : min (min n limit + 1) limit = min (n + 1) limit := by omega
      rw [if_pos hnow, LatencyTracker.count_record, hcounted, hdue]
      exact hfull _ maxSamples

end RoutedSamplesRun

end NanoRing
