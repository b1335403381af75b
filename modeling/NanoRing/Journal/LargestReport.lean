import NanoRing.Journal.Backpressure

/-!
# The largest report

Whatever the consumers report, and whoever reports it, `min_consumer_seq_` is the largest position
that a call of `report_consumer_progress` has stored: it never falls, no report is lost to a failed
compare-exchange, and some consumer has reached it. The producer stays within a capacity of it, so a
consumer that has read that far is served the right items, and only the others can be lapped.
-/

namespace NanoRing

open Schedule

/-- What `backlog` returns for the two loaded values. -/
def BroadcastJournal.backlog (publishedIndex minConsumerSeq : ℕ) : ℕ := publishedIndex - minConsumerSeq

namespace JournalRun

variable {α : Type} {exponent numConsumers : ℕ} {items : ℕ → α} {s s' : JournalRun α}

/-- The call of `report_consumer_progress` returns with this step. -/
def Returns (s s' : JournalRun α) (c : ℕ) : Prop :=
  (s.consumers c).pc ≠ .reading ∧ (s'.consumers c).pc = .reading

/-- What `min_consumer_seq_` is good for in any run: the producer is at most a capacity ahead of it,
it has been reached by a consumer and by every report that has returned, the consumers that have
reached it read the right items, and the producer gets the right `backlog` whatever the consumers do
meanwhile. -/
structure LargestReport (exponent numConsumers : ℕ) (items : ℕ → α) (s : JournalRun α) : Prop where
  published_le : s.journal.publishedIndex ≤ s.journal.minConsumerSeq + 2 ^ exponent
  reached : s.journal.minConsumerSeq = 0 ∨
    ∃ c < numConsumers, s.journal.minConsumerSeq ≤ (s.consumers c).localSeq
  served : ∀ c < numConsumers, s.journal.minConsumerSeq ≤ (s.consumers c).localSeq →
    s.journal.Window exponent items (s.consumers c).localSeq s.journal.publishedIndex
  kept : ∀ c a s', s.step exponent numConsumers items a = some s' → Returns s s' c →
    ∀ later t, run (JournalRun.step exponent numConsumers items) s' later = some t →
      (s.consumers c).localSeq ≤ t.journal.minConsumerSeq
  backlog : ∀ others t, .produce ∉ others →
    run (JournalRun.step exponent numConsumers items) s others = some t →
      let backlog := BroadcastJournal.backlog s.journal.publishedIndex t.journal.minConsumerSeq
      t.journal.minConsumerSeq + backlog = s.journal.publishedIndex ∧ backlog ≤ 2 ^ exponent

/-! ### The invariant -/

/-- What holds in every state, whoever reports. -/
structure Capped (exponent numConsumers : ℕ) (items : ℕ → α) (s : JournalRun α) : Prop where
  published_eq : s.journal.publishedIndex = s.sequence
  local_le : ∀ c < numConsumers, (s.consumers c).localSeq ≤ s.sequence
  reached : s.journal.minConsumerSeq = 0 ∨
    ∃ c < numConsumers, s.journal.minConsumerSeq ≤ (s.consumers c).localSeq
  reporting_le : ∀ c currentMin, (s.consumers c).pc = .reporting currentMin →
    currentMin ≤ s.journal.minConsumerSeq
  loaded_le : ∀ minSeq, s.producer = .loaded minSeq → minSeq ≤ s.journal.minConsumerSeq
  copied_le : s.copiedUpTo ≤ s.journal.minConsumerSeq + 2 ^ exponent
  unread : s.journal.Window exponent items s.journal.minConsumerSeq s.copiedUpTo

theorem Capped.min_le (h : Capped exponent numConsumers items s) :
    s.journal.minConsumerSeq ≤ s.sequence := by
  obtain hzero | ⟨c, hc, hmin⟩ := h.reached
  · exact hzero ▸ Nat.zero_le _
  · exact hmin.trans (h.local_le c hc)

theorem sequence_le_copiedUpTo (s : JournalRun α) : s.sequence ≤ s.copiedUpTo := by
  unfold copiedUpTo
  split <;> omega

theorem start_capped [Inhabited α] (exponent numConsumers : ℕ) (items : ℕ → α) :
    Capped exponent numConsumers items start where
  published_eq := rfl
  local_le := fun _ _ => le_rfl
  reached := Or.inl rfl
  reporting_le := nofun
  loaded_le := nofun
  copied_le := Nat.zero_le _
  unread := RingWindow.holds_of_le le_rfl

/-- The producer copies only where its test against an old minimum has found room. -/
theorem Capped.produce (h : Capped exponent numConsumers items s) :
    Capped exponent numConsumers items (s.produce exponent items) := by
  have hcopied := h.copied_le
  have hunread := h.unread
  unfold copiedUpTo at hcopied hunread
  unfold JournalRun.produce
  cases hpc : s.producer with
  | start =>
    rw [hpc] at hcopied hunread
    refine ⟨h.published_eq, h.local_le, h.reached, h.reporting_le, ?_, hcopied, hunread⟩
    intro minSeq hload
    cases hload
    exact le_rfl
  | loaded minSeq =>
    rw [hpc] at hcopied hunread
    dsimp only
    split
    case isTrue =>
      refine ⟨h.published_eq, h.local_le, h.reached, h.reporting_le, fun minSeq hload => ?_, hcopied,
        hunread⟩
      cases hload
    case isFalse hlap =>
      have hroom : s.sequence < s.journal.minConsumerSeq + 2 ^ exponent := by
        have hold := h.loaded_le minSeq hpc
        simp only [BroadcastJournal.wouldLap, ge_iff_le, decide_eq_true_eq] at hlap
        omega
      refine ⟨h.published_eq, h.local_le, h.reached, h.reporting_le, fun minSeq hload => ?_, hroom,
        hunread.copyItem hroom⟩
      cases hload
  | copied =>
    rw [hpc] at hcopied hunread
    refine ⟨rfl, fun c hc => (h.local_le c hc).trans (Nat.le_succ _), h.reached, h.reporting_le,
      fun minSeq hload => ?_, hcopied, hunread⟩
    cases hload

/-- A step of one consumer that leaves the journal alone keeps the invariant when the consumer does
not fall back or run ahead. -/
theorem Capped.setConsumer (h : Capped exponent numConsumers items s) {c : ℕ}
    {consumer : JournalConsumer α} (hback : (s.consumers c).localSeq ≤ consumer.localSeq)
    (hahead : c < numConsumers → consumer.localSeq ≤ s.sequence)
    (hreporting : ∀ currentMin, consumer.pc = .reporting currentMin →
      currentMin ≤ s.journal.minConsumerSeq) :
    Capped exponent numConsumers items (s.setConsumer c consumer) where
  published_eq := h.published_eq
  local_le := fun c' hc' => by
    by_cases hcc : c' = c
    · subst hcc
      rw [setConsumer_self]
      exact hahead hc'
    · rw [setConsumer_of_ne hcc]
      exact h.local_le c' hc'
  reached := by
    refine h.reached.imp id fun ⟨c', hc', hmin⟩ => ⟨c', hc', ?_⟩
    by_cases hcc : c' = c
    · subst hcc
      rw [setConsumer_self]
      exact hmin.trans hback
    · rw [setConsumer_of_ne hcc]
      exact hmin
  reporting_le := fun c' currentMin hpc => by
    by_cases hcc : c' = c
    · subst hcc
      rw [setConsumer_self] at hpc
      exact hreporting currentMin hpc
    · rw [setConsumer_of_ne hcc] at hpc
      exact h.reporting_le c' currentMin hpc
  loaded_le := h.loaded_le
  copied_le := h.copied_le
  unread := h.unread

/-- Moving a consumer to another place keeps the invariant. -/
theorem Capped.setPc (h : Capped exponent numConsumers items s) {c : ℕ} {pc : ConsumerPc}
    (hc : c < numConsumers) (hpc : ∀ currentMin, pc = .reporting currentMin →
      currentMin ≤ s.journal.minConsumerSeq) :
    Capped exponent numConsumers items (s.setPc c pc) :=
  h.setConsumer le_rfl (fun _ => h.local_le c hc) hpc

/-- A report that is stored is larger than the minimum before. -/
theorem Capped.store (h : Capped exponent numConsumers items s) {c : ℕ} (hc : c < numConsumers)
    (hmin : s.journal.minConsumerSeq ≤ (s.consumers c).localSeq) :
    Capped exponent numConsumers items
      { s with journal := { s.journal with minConsumerSeq := (s.consumers c).localSeq } } where
  published_eq := h.published_eq
  local_le := h.local_le
  reached := Or.inr ⟨c, hc, le_rfl⟩
  reporting_le := fun c' currentMin hpc => (h.reporting_le c' currentMin hpc).trans hmin
  loaded_le := fun minSeq hload => (h.loaded_le minSeq hload).trans hmin
  copied_le := h.copied_le.trans (Nat.add_le_add_right hmin _)
  unread := h.unread.mono hmin le_rfl

/-! ### What a step of a consumer does -/

/-- What a step of a consumer does, with what it has found. -/
inductive ConsumerStep (exponent numConsumers : ℕ) (s : JournalRun α) : JournalRun α → Prop
  | read {c : ℕ} (hc : c < numConsumers) (hpc : (s.consumers c).pc = .reading)
      (hpublished : (s.consumers c).localSeq < s.journal.publishedIndex) :
      ConsumerStep exponent numConsumers s (s.setConsumer c { s.consumers c with
        localSeq := (s.consumers c).localSeq + 1
        seen := (s.consumers c).seen ++ [s.journal.getPayload exponent (s.consumers c).localSeq] })
  | began {c : ℕ} (hc : c < numConsumers) (hpc : (s.consumers c).pc = .reading) :
      ConsumerStep exponent numConsumers s (s.setPc c (.reporting s.journal.minConsumerSeq))
  | failed {c : ℕ} (hc : c < numConsumers) :
      ConsumerStep exponent numConsumers s (s.setPc c (.reporting s.journal.minConsumerSeq))
  | stored {c : ℕ} (hc : c < numConsumers)
      (hahead : s.journal.minConsumerSeq < (s.consumers c).localSeq) :
      ConsumerStep exponent numConsumers s { s.setPc c .reading with
        journal := { s.journal with minConsumerSeq := (s.consumers c).localSeq } }
  | ended {c currentMin : ℕ} (hc : c < numConsumers)
      (hpc : (s.consumers c).pc = .reporting currentMin)
      (hbehind : (s.consumers c).localSeq ≤ currentMin) :
      ConsumerStep exponent numConsumers s (s.setPc c .reading)

theorem consumerStep_of_step {a : JournalAction} (hproduce : a ≠ .produce)
    (hstep : s.step exponent numConsumers items a = some s') :
    ConsumerStep exponent numConsumers s s' := by
  cases a with
  | produce => exact absurd rfl hproduce
  | read c =>
    obtain ⟨hc, hread⟩ := Option.ite_none_right_eq_some.mp hstep
    unfold JournalRun.read at hread
    dsimp only at hread
    split at hread
    case h_1 hpc =>
      obtain ⟨hpublished, hread⟩ := Option.ite_none_right_eq_some.mp hread
      exact Option.some.inj hread ▸ .read hc hpc hpublished
    case h_2 => contradiction
  | beginReport c =>
    obtain ⟨hc, hbegin⟩ := Option.ite_none_right_eq_some.mp hstep
    unfold JournalRun.beginReport at hbegin
    split at hbegin
    case h_1 hpc => exact Option.some.inj hbegin ▸ .began hc hpc
    case h_2 => contradiction
  | compareExchange c spurious =>
    obtain ⟨hc, hexchange⟩ := Option.ite_none_right_eq_some.mp hstep
    unfold JournalRun.compareExchange at hexchange
    dsimp only at hexchange
    split at hexchange
    case h_1 currentMin hpc =>
      obtain ⟨hahead, hloop⟩ := Option.ite_none_right_eq_some.mp hexchange
      split at hloop
      case isTrue hmin =>
        obtain ⟨rfl, -⟩ := hmin
        exact Option.some.inj hloop ▸ .stored hc hahead
      case isFalse => exact Option.some.inj hloop ▸ .failed hc
    case h_2 => contradiction
  | endReport c =>
    obtain ⟨hc, hend⟩ := Option.ite_none_right_eq_some.mp hstep
    unfold JournalRun.endReport at hend
    split at hend
    case h_1 currentMin hpc =>
      obtain ⟨hbehind, hend⟩ := Option.ite_none_left_eq_some.mp hend
      exact Option.some.inj hend ▸ .ended hc hpc (Nat.le_of_not_lt hbehind)
    case h_2 => contradiction

theorem Capped.consumerStep (h : Capped exponent numConsumers items s)
    (hstep : ConsumerStep exponent numConsumers s s') : Capped exponent numConsumers items s' := by
  cases hstep with
  | read hc hpc hpublished =>
    refine h.setConsumer (Nat.le_succ _) (fun _ => ?_) fun currentMin hreporting => ?_
    · rw [h.published_eq] at hpublished
      exact hpublished
    · exact h.reporting_le _ currentMin hreporting
  | began hc _ | failed hc =>
    refine h.setPc hc fun currentMin hreporting => ?_
    exact (ConsumerPc.reporting.inj hreporting).ge
  | @stored c hc hahead =>
    have hmoved : Capped exponent numConsumers items (s.setPc c .reading) := h.setPc hc nofun
    have hstored := hmoved.store hc (by rw [setPc_localSeq]; exact hahead.le)
    rw [setPc_localSeq] at hstored
    exact hstored
  | ended hc _ _ => exact h.setPc hc nofun

theorem Capped.step (h : Capped exponent numConsumers items s) {a : JournalAction}
    (hstep : s.step exponent numConsumers items a = some s') :
    Capped exponent numConsumers items s' := by
  by_cases hproduce : a = .produce
  · subst hproduce
    exact Option.some.inj hstep ▸ h.produce
  · exact h.consumerStep (consumerStep_of_step hproduce hstep)

/-! ### What later steps leave -/

/-- The minimum never falls. -/
theorem minConsumerSeq_le_of_step {a : JournalAction}
    (hstep : s.step exponent numConsumers items a = some s') :
    s.journal.minConsumerSeq ≤ s'.journal.minConsumerSeq := by
  by_cases hproduce : a = .produce
  · subst hproduce
    obtain rfl := Option.some.inj hstep
    unfold JournalRun.produce
    split
    · exact le_rfl
    · split <;> exact le_rfl
    · exact le_rfl
  · cases consumerStep_of_step hproduce hstep with
    | read | began | failed | ended => exact le_rfl
    | stored hc hahead => exact hahead.le

/-- Only the producer publishes. -/
theorem publishedIndex_of_run {others : List JournalAction} (hothers : .produce ∉ others)
    (hrun : run (JournalRun.step exponent numConsumers items) s others = some s') :
    s'.journal.publishedIndex = s.journal.publishedIndex := by
  induction others generalizing s with
  | nil => exact Option.some.inj hrun ▸ rfl
  | cons a rest ih =>
    obtain ⟨s₁, hfirst, hrest⟩ := run_cons_eq_some_iff.mp hrun
    rw [List.mem_cons, not_or] at hothers
    rw [ih hothers.2 hrest]
    cases consumerStep_of_step (Ne.symm hothers.1) hfirst with
    | read | began | failed | stored | ended => rfl

/-- When a report returns, the minimum has reached it. -/
theorem Capped.le_of_returns (h : Capped exponent numConsumers items s) {c : ℕ} {a : JournalAction}
    (hstep : s.step exponent numConsumers items a = some s') (hreturns : Returns s s' c) :
    (s.consumers c).localSeq ≤ s'.journal.minConsumerSeq := by
  obtain ⟨hinside, houtside⟩ := hreturns
  have hmoved {c' : ℕ} {consumer : JournalConsumer α}
      (houtside : ((s.setConsumer c' consumer).consumers c).pc = .reading) : c' = c := by
    by_contra hne
    rw [setConsumer_of_ne (Ne.symm hne)] at houtside
    exact hinside houtside
  by_cases hproduce : a = .produce
  · subst hproduce
    obtain rfl := Option.some.inj hstep
    rw [produce_consumers] at houtside
    exact absurd houtside hinside
  · cases consumerStep_of_step hproduce hstep with
    | read hc hpc _ =>
      obtain rfl := hmoved houtside
      exact absurd hpc hinside
    | began hc hpc =>
      obtain rfl := hmoved houtside
      exact absurd hpc hinside
    | failed hc =>
      obtain rfl := hmoved houtside
      rw [JournalRun.setPc, setConsumer_self] at houtside
      contradiction
    | stored hc hahead =>
      obtain rfl := hmoved houtside
      exact le_rfl
    | ended hc hpc hbehind =>
      obtain rfl := hmoved houtside
      exact hbehind.trans (h.reporting_le _ _ hpc)

theorem Capped.published_le (h : Capped exponent numConsumers items s) :
    s.journal.publishedIndex ≤ s.journal.minConsumerSeq + 2 ^ exponent := by
  rw [h.published_eq]
  exact s.sequence_le_copiedUpTo.trans h.copied_le

theorem Capped.largestReport (h : Capped exponent numConsumers items s) :
    LargestReport exponent numConsumers items s where
  published_le := h.published_le
  reached := h.reached
  served := fun c _ hmin => by
    rw [h.published_eq]
    exact h.unread.mono hmin s.sequence_le_copiedUpTo
  kept := fun c a s' hstep hreturns later t hlater =>
    run_invariant
      (fun _ _ _ hle hnext => le_trans hle (minConsumerSeq_le_of_step hnext))
      (h.le_of_returns hstep hreturns) hlater
  backlog := fun others t hothers hrun => by
    have ht : Capped exponent numConsumers items t :=
      run_invariant (fun _ _ _ ih hnext => ih.step hnext) h hrun
    have hle := ht.published_le
    have hmin := ht.min_le
    rw [← ht.published_eq] at hmin
    rw [publishedIndex_of_run hothers hrun] at hle hmin
    exact ⟨Nat.add_sub_of_le hmin, Nat.sub_le_of_le_add (Nat.add_comm _ _ ▸ hle)⟩

/-- In every run, whoever reports and whichever compare-exchange fails, `min_consumer_seq_` is the
largest report, and the producer keeps within a capacity of it. -/
theorem minimum_is_largestReport [Inhabited α] (exponent numConsumers : ℕ) (items : ℕ → α)
    (actions : List JournalAction) (s : JournalRun α)
    (hrun : run (JournalRun.step exponent numConsumers items) start actions = some s) :
    LargestReport exponent numConsumers items s :=
  have hcapped : Capped exponent numConsumers items s :=
    run_invariant (fun _ _ _ ih hstep => ih.step hstep)
      (start_capped exponent numConsumers items) hrun
  hcapped.largestReport

/-- The first consumer reports both items, one compare-exchange failing without reason, and the
second has read none. -/
def fastReports : List JournalAction :=
  List.replicate 6 .produce ++ [.read 0, .read 0, .beginReport 0, .compareExchange 0 true]

theorem fastReports_largestReport :
    ∃ s, run (JournalRun.step 1 2 id) start fastReports = some s ∧
      (s.consumers 0).pc = .reporting 0 ∧ (s.consumers 1).localSeq = 0 ∧
      LargestReport 1 2 id s := by
  refine ⟨_, rfl, rfl, rfl, ?_⟩
  exact minimum_is_largestReport 1 2 id fastReports _ rfl

end JournalRun

end NanoRing
