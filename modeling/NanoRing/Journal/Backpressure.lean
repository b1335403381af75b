import NanoRing.Common.Schedule
import NanoRing.Journal.JournalRun
import Mathlib.Data.List.Range

/-!
# Backpressure

`min_consumer_seq_` is the largest value that was ever reported, so it is the slowest
consumer's progress only as long as each report that is stored comes from a slowest consumer.
In the runs where this is so, and in no others, the producer never laps a consumer.
-/

namespace NanoRing

open Schedule

namespace JournalRun

variable {α : Type}

section Invariant

variable {exponent numConsumers : ℕ} {items : ℕ → α} {s s' : JournalRun α}

@[simp] theorem setConsumer_self (s : JournalRun α) (c : ℕ) (consumer : JournalConsumer α) :
    (s.setConsumer c consumer).consumers c = consumer := Function.update_self _ _ _

theorem setConsumer_of_ne {c c' : ℕ} (h : c' ≠ c) (consumer : JournalConsumer α) :
    (s.setConsumer c consumer).consumers c' = s.consumers c' := Function.update_of_ne h _ _

@[simp] theorem setPc_localSeq (s : JournalRun α) (c : ℕ) (pc : ConsumerPc) (c' : ℕ) :
    ((s.setPc c pc).consumers c').localSeq = (s.consumers c').localSeq := by
  by_cases h : c' = c
  · subst h
    rw [setPc, setConsumer_self]
  · rw [setPc, setConsumer_of_ne h]

/-- The sequence numbers below this one have been copied into their slots. -/
def copiedUpTo (s : JournalRun α) : ℕ :=
  match s.producer with
  | .copied => s.sequence + 1
  | _ => s.sequence

/-- What a run guarantees to one consumer. -/
structure Serves (exponent : ℕ) (items : ℕ → α) (s : JournalRun α) (consumer : JournalConsumer α) :
    Prop where
  min_le : s.journal.minConsumerSeq ≤ consumer.localSeq
  local_le : consumer.localSeq ≤ s.sequence
  overwritten : s.producer = .copied → s.sequence < consumer.localSeq + 2 ^ exponent
  unread : s.journal.Window exponent items consumer.localSeq s.copiedUpTo
  seen : consumer.seen = (List.range consumer.localSeq).map items

/-- What holds in every state of a run in which only slowest consumers store a report. -/
structure Inv (exponent numConsumers : ℕ) (items : ℕ → α) (s : JournalRun α) : Prop where
  published_eq : s.journal.publishedIndex = s.sequence
  loaded_le : ∀ minSeq, s.producer = .loaded minSeq → minSeq ≤ s.journal.minConsumerSeq
  consumer : ∀ c < numConsumers, Serves exponent items s (s.consumers c)

/-- Only the journal and the producer matter to what is guaranteed to a consumer. -/
theorem Serves.congr {consumer : JournalConsumer α} (h : Serves exponent items s consumer)
    (hjournal : s'.journal = s.journal) (hproducer : s'.producer = s.producer)
    (hsequence : s'.sequence = s.sequence) : Serves exponent items s' consumer where
  min_le := hjournal ▸ h.min_le
  local_le := hsequence ▸ h.local_le
  overwritten := fun hcopied => hsequence ▸ h.overwritten (hproducer ▸ hcopied)
  unread := by
    rw [copiedUpTo, hjournal, hproducer, hsequence]
    exact h.unread
  seen := h.seen

theorem Inv.safe (h : Inv exponent numConsumers items s) : Safe exponent numConsumers items s where
  min_le := fun c hc => (h.consumer c hc).min_le
  overwritten := fun hcopied c hc => (h.consumer c hc).overwritten hcopied
  unread := fun c hc => by
    refine (h.consumer c hc).unread.mono le_rfl ?_
    rw [h.published_eq, copiedUpTo]
    split <;> omega
  seen := fun c hc => (h.consumer c hc).seen

theorem start_inv [Inhabited α] (exponent numConsumers : ℕ) (items : ℕ → α) :
    Inv exponent numConsumers items start where
  published_eq := rfl
  loaded_le := nofun
  consumer := fun _ _ => ⟨le_rfl, le_rfl, nofun, RingWindow.holds_of_le le_rfl, rfl⟩

/-! ### Steps of the producer -/

/-- Only a step that copies an item has to look at a consumer's slots: it copies behind it. -/
theorem Serves.produce {consumer : JournalConsumer α} (h : Serves exponent items s consumer)
    (hloaded : ∀ minSeq, s.producer = .loaded minSeq → minSeq ≤ s.journal.minConsumerSeq) :
    Serves exponent items (s.produce exponent items) consumer := by
  have hunread := h.unread
  unfold JournalRun.produce
  unfold copiedUpTo at hunread
  cases hpc : s.producer with
  | start =>
    rw [hpc] at hunread
    exact ⟨h.min_le, h.local_le, nofun, hunread, h.seen⟩
  | loaded minSeq =>
    rw [hpc] at hunread
    dsimp only
    split
    · exact ⟨h.min_le, h.local_le, nofun, hunread, h.seen⟩
    · rename_i hlap
      -- the loaded minimum is not ahead of the consumer
      have hroom : s.sequence < consumer.localSeq + 2 ^ exponent := by
        have hmin := h.min_le
        have hold := hloaded minSeq hpc
        simp only [BroadcastJournal.wouldLap, ge_iff_le, decide_eq_true_eq] at hlap
        omega
      exact ⟨h.min_le, h.local_le, fun _ => hroom, hunread.copyItem hroom, h.seen⟩
  | copied =>
    rw [hpc] at hunread
    exact ⟨h.min_le, h.local_le.trans (Nat.le_succ _), nofun, hunread, h.seen⟩

theorem produce_consumers (exponent : ℕ) (items : ℕ → α) (s : JournalRun α) :
    (s.produce exponent items).consumers = s.consumers := by
  unfold JournalRun.produce
  split
  · rfl
  · split <;> rfl
  · rfl

theorem Inv.produce (h : Inv exponent numConsumers items s) :
    Inv exponent numConsumers items (s.produce exponent items) := by
  refine ⟨?_, ?_, fun c hc => ?_⟩
  · unfold JournalRun.produce
    split
    · exact h.published_eq
    · split <;> exact h.published_eq
    · rfl
  · unfold JournalRun.produce
    split
    · intro minSeq hload
      cases hload
      exact le_rfl
    · split <;> exact nofun
    · exact nofun
  · rw [produce_consumers]
    exact (h.consumer c hc).produce h.loaded_le

/-! ### Steps of a consumer -/

/-- A step of one consumer keeps the invariant when it keeps what is guaranteed to it. -/
theorem Inv.setConsumer (h : Inv exponent numConsumers items s) {c : ℕ}
    {consumer : JournalConsumer α} (hserves : c < numConsumers → Serves exponent items s consumer) :
    Inv exponent numConsumers items (s.setConsumer c consumer) where
  published_eq := h.published_eq
  loaded_le := h.loaded_le
  consumer := fun c' hc' => by
    by_cases hcc : c' = c
    · subst hcc
      rw [setConsumer_self]
      exact (hserves hc').congr rfl rfl rfl
    · rw [setConsumer_of_ne hcc]
      exact (h.consumer c' hc').congr rfl rfl rfl

/-- Moving a consumer to another place keeps the invariant. -/
theorem Inv.setPc (h : Inv exponent numConsumers items s) (c : ℕ) (pc : ConsumerPc) :
    Inv exponent numConsumers items (s.setPc c pc) :=
  h.setConsumer fun hc =>
    have hserves := h.consumer c hc
    ⟨hserves.min_le, hserves.local_le, hserves.overwritten, hserves.unread, hserves.seen⟩

/-- A read keeps the invariant: the item of an unread number is still in its slot. -/
theorem Inv.read (h : Inv exponent numConsumers items s) {c : ℕ}
    (hstep : s.read exponent c = some s') : Inv exponent numConsumers items s' := by
  unfold JournalRun.read at hstep
  dsimp only at hstep
  split at hstep
  · split at hstep
    · rename_i hpublished
      obtain rfl := Option.some.inj hstep
      refine h.setConsumer fun hc => ?_
      have hserves := h.consumer c hc
      have hlt : (s.consumers c).localSeq < s.sequence := h.published_eq ▸ hpublished
      have hcopied : s.sequence ≤ s.copiedUpTo := by
        unfold copiedUpTo
        split <;> omega
      have hitem := hserves.unread.getPayload_eq le_rfl (hlt.trans_le hcopied)
      refine ⟨hserves.min_le.trans (Nat.le_succ _), hlt, fun hpc => ?_,
        hserves.unread.mono (Nat.le_succ _) le_rfl, ?_⟩
      · have hover := hserves.overwritten hpc
        change s.sequence < (s.consumers c).localSeq + 1 + 2 ^ exponent
        omega
      · change (s.consumers c).seen ++ [_] = _
        rw [List.range_succ, List.map_append, ← hserves.seen, hitem]
        rfl
    · contradiction
  · contradiction

/-- A report of a slowest consumer keeps the invariant. -/
theorem Inv.compareExchange (h : Inv exponent numConsumers items s) {c : ℕ} {spurious : Bool}
    (hc : c < numConsumers)
    (hslowest : SlowestReports numConsumers s (.compareExchange c spurious))
    (hstep : s.compareExchange c spurious = some s') : Inv exponent numConsumers items s' := by
  unfold JournalRun.compareExchange at hstep
  dsimp only at hstep
  split at hstep
  · rename_i currentMin hpc
    split at hstep
    · rename_i hahead
      split at hstep
      · rename_i hmin
        obtain ⟨hmin, rfl⟩ := hmin
        obtain rfl := Option.some.inj hstep
        have hexchanges : s.Exchanges c := by
          unfold Exchanges
          rw [hpc]
          exact ⟨hahead, hmin⟩
        have hmoved := h.setPc c .reading
        refine ⟨h.published_eq, fun minSeq hload => ?_, fun c' hc' => ?_⟩
        · have hold : minSeq ≤ s.journal.minConsumerSeq := hmoved.loaded_le minSeq hload
          exact hold.trans (hmin ▸ Nat.le_of_lt hahead)
        · have hserves := hmoved.consumer c' hc'
          refine ⟨?_, hserves.local_le, hserves.overwritten, hserves.unread, hserves.seen⟩
          change (s.consumers c).localSeq ≤ ((s.setPc c .reading).consumers c').localSeq
          rw [setPc_localSeq]
          exact hslowest c hc rfl hexchanges c' hc'
      · obtain rfl := Option.some.inj hstep
        exact h.setPc c _
    · contradiction
  · contradiction

/-- Every step under the guard keeps the invariant. -/
theorem Inv.step (h : Inv exponent numConsumers items s) {a : JournalAction}
    (hslowest : SlowestReports numConsumers s a)
    (hstep : s.step exponent numConsumers items a = some s') :
    Inv exponent numConsumers items s' := by
  cases a with
  | produce =>
    obtain rfl := Option.some.inj hstep
    exact h.produce
  | read c => exact h.read (Option.ite_none_right_eq_some.mp hstep).2
  | beginReport c =>
    have hbegin := (Option.ite_none_right_eq_some.mp hstep).2
    unfold JournalRun.beginReport at hbegin
    split at hbegin
    · obtain rfl := Option.some.inj hbegin
      exact h.setPc c _
    · contradiction
  | compareExchange c spurious =>
    obtain ⟨hc, hexchange⟩ := Option.ite_none_right_eq_some.mp hstep
    exact h.compareExchange hc hslowest hexchange
  | endReport c =>
    have hend := (Option.ite_none_right_eq_some.mp hstep).2
    unfold JournalRun.endReport at hend
    split at hend
    · split at hend
      · contradiction
      · obtain rfl := Option.some.inj hend
        exact h.setPc c _
    · contradiction

/-- The step of an effective report stores what the consumer has read. -/
theorem step_of_exchanges (exponent : ℕ) (items : ℕ → α) {c : ℕ} (hc : c < numConsumers)
    (hexchanges : s.Exchanges c) :
    s.step exponent numConsumers items (.compareExchange c false) =
      some { s.setPc c .reading with
        journal := { s.journal with minConsumerSeq := (s.consumers c).localSeq } } := by
  unfold Exchanges at hexchanges
  rw [step, if_pos hc, compareExchange]
  split at hexchanges
  · rw [if_pos hexchanges.1, if_pos ⟨hexchanges.2, rfl⟩]
  · contradiction

/-- Backpressure holds in every state of a run exactly when every report that takes effect in it
is that of a slowest consumer. -/
theorem safe_iff_slowestReports [Inhabited α] (exponent numConsumers : ℕ) (items : ℕ → α)
    (actions : List JournalAction) :
    (∀ before s, before <+: actions →
      run (JournalRun.step exponent numConsumers items) start before = some s →
      Safe exponent numConsumers items s) ↔
    Guarded (JournalRun.step exponent numConsumers items) (SlowestReports numConsumers) start
      actions := by
  constructor
  · intro hsafe before a s hbefore hrun c hc ha hexchanges c' hc'
    subst ha
    have hafter := run_snoc_eq_some_iff.mpr
      ⟨s, hrun, step_of_exchanges exponent items hc hexchanges⟩
    have hmin := (hsafe _ _ hbefore hafter).min_le c' hc'
    change (s.consumers c).localSeq ≤ ((s.setPc c .reading).consumers c').localSeq at hmin
    rwa [setPc_localSeq] at hmin
  · intro hguard before s hbefore hrun
    exact (guarded_invariant (fun _ _ _ h hslowest hstep => Inv.step h hslowest hstep)
      (start_inv exponent numConsumers items) (hguard.of_prefix hbefore) hrun).safe

/-- Two slots and two consumers: the first reads both items and reports, and the producer laps the
second. -/
def lappingRun : List JournalAction :=
  List.replicate 6 .produce ++
    ([.read 0, .read 0, .beginReport 0, .compareExchange 0 false] ++
      (List.replicate 3 .produce ++ [.read 1]))

/-- The second consumer reads the third item as its first. -/
theorem lappingRun_not_safe :
    (run (JournalRun.step 1 2 id) start lappingRun).map
      (fun s => ((s.consumers 1).localSeq, (s.consumers 1).seen)) = some (1, [2]) ∧
    ¬ ∀ before s, before <+: lappingRun →
      run (JournalRun.step 1 2 id) start before = some s → Safe 1 2 id s := by
  have hread : (run (JournalRun.step 1 2 id) start lappingRun).map
      (fun s => ((s.consumers 1).localSeq, (s.consumers 1).seen)) = some (1, [2]) := by decide
  refine ⟨hread, fun hsafe => ?_⟩
  obtain ⟨s, hrun, hs⟩ := Option.map_eq_some_iff.mp hread
  obtain ⟨hlocal, hseen⟩ := Prod.mk.injEq _ _ _ _ ▸ hs
  have hright := (hsafe lappingRun s List.prefix_rfl hrun).seen 1 (by decide)
  rw [hlocal, hseen] at hright
  contradiction

end Invariant

end JournalRun

end NanoRing
