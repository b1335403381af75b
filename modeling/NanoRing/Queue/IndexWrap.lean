import NanoRing.Common.Schedule
import NanoRing.Queue.SpscQueue

/-!
# The tests of the queue when its indices wrap

Calls of `try_push` and `try_pop` one after the other, on indices of `w` bits that wrap. The
numbers of completed pushes and pops are counted beside the queue. The producer tests the
modular difference of the indices, which is the number of items whatever the indices are. The
consumer compares the indices themselves, which is right while both have wrapped equally often.
-/

namespace NanoRing

open Schedule

/-- `try_push`, one attempt of `push`; `none` when the queue is full. -/
def SpscQueue.tryPush {w : ℕ} {α : Type} (q : SpscQueue w α) (exponent : ℕ) (item : α) :
    Option (SpscQueue w α) :=
  if isFull exponent q.head q.tail then none else some (q.enqueue exponent q.head item)

/-- A call of either side. -/
inductive QueueCall (α : Type)
  | tryPush (item : α)
  | tryPop

/-- The queue, and the numbers of completed pushes and pops. -/
structure CountedQueue (w : ℕ) (α : Type) where
  queue : SpscQueue w α
  pushes : ℕ
  pops : ℕ

namespace CountedQueue

variable {w exponent : ℕ} {α : Type}

def start [Inhabited α] : CountedQueue w α where
  queue := .empty
  pushes := 0
  pops := 0

/-- The state behind a call that succeeds; `none` when it returns false. -/
def call (exponent : ℕ) (s : CountedQueue w α) : QueueCall α → Option (CountedQueue w α)
  | .tryPush item => (s.queue.tryPush exponent item).map fun queue =>
    { s with queue := queue, pushes := s.pushes + 1 }
  | .tryPop => (s.queue.tryPop exponent).map fun popped =>
    { s with queue := popped.2, pops := s.pops + 1 }

/-- A call that returns false leaves the queue as it is. -/
def step (exponent : ℕ) (s : CountedQueue w α) (c : QueueCall α) : Option (CountedQueue w α) :=
  some ((s.call exponent c).getD s)

/-- A push is due below the capacity, a pop when an item is left. -/
def Due (exponent : ℕ) (s : CountedQueue w α) : QueueCall α → Prop
  | .tryPush _ => s.pushes - s.pops < 2 ^ exponent
  | .tryPop => s.pops < s.pushes

/-- A call succeeds exactly when it is due. -/
def Exact (exponent : ℕ) (s : CountedQueue w α) (c : QueueCall α) : Prop :=
  (s.call exponent c).isSome = true ↔ s.Due exponent c

/-- At a pop both indices have wrapped equally often. -/
def SameLap (s : CountedQueue w α) (c : QueueCall α) : Prop :=
  c = .tryPop → s.pushes / 2 ^ w = s.pops / 2 ^ w

/-- The indices are the counts modulo `2^w`, and the queue is within its capacity. -/
structure Inv (exponent : ℕ) (s : CountedQueue w α) : Prop where
  head_eq : s.queue.head = BitVec.ofNat w s.pushes
  tail_eq : s.queue.tail = BitVec.ofNat w s.pops
  pops_le : s.pops ≤ s.pushes
  pushes_le : s.pushes ≤ s.pops + 2 ^ exponent

theorem start_inv [Inhabited α] : Inv exponent (start : CountedQueue w α) :=
  ⟨rfl, rfl, le_rfl, Nat.zero_le _⟩

/-- The modular difference of two counters that are less than a lap apart. -/
theorem toNat_ofNat_sub {high low : ℕ} (hle : low ≤ high) (hlap : high < low + 2 ^ w) :
    (BitVec.ofNat w high - BitVec.ofNat w low).toNat = high - low := by
  obtain ⟨d, rfl⟩ := Nat.exists_eq_add_of_le' hle
  rw [BitVec.ofNat_add, BitVec.add_sub_cancel, BitVec.toNat_ofNat, Nat.mod_eq_of_lt (by omega),
    Nat.add_sub_cancel]

/-- The comparison of two counters that are less than a lap apart. -/
theorem ofNat_le_ofNat_iff {high low : ℕ} (hle : low ≤ high) (hlap : high < low + 2 ^ w) :
    BitVec.ofNat w high ≤ BitVec.ofNat w low ↔ high = low ∨ high / 2 ^ w ≠ low / 2 ^ w := by
  have hpos : 0 < 2 ^ w := Nat.two_pow_pos w
  have hlow := Nat.div_add_mod low (2 ^ w)
  have hhigh := Nat.div_add_mod high (2 ^ w)
  have hlt := Nat.mod_lt low hpos
  have hlaps : low / 2 ^ w ≤ high / 2 ^ w := Nat.div_le_div_right hle
  have hnext : high / 2 ^ w ≤ low / 2 ^ w + 1 := by
    rw [← Nat.add_div_right low hpos]
    exact Nat.div_le_div_right hlap.le
  rw [BitVec.le_def, BitVec.toNat_ofNat, BitVec.toNat_ofNat]
  rcases Nat.eq_or_lt_of_le hlaps with heq | hmore
  · rw [← heq] at hhigh ⊢
    omega
  · have hone : high / 2 ^ w = low / 2 ^ w + 1 := by omega
    rw [hone, Nat.mul_succ] at hhigh
    omega

section Tests

variable {s : CountedQueue w α}

theorem Inv.lap (h : Inv exponent s) (hcapacity : exponent < w) : s.pushes < s.pops + 2 ^ w := by
  have hpow := Nat.pow_lt_pow_right Nat.one_lt_two hcapacity
  have hle := h.pushes_le
  omega

/-- The number of available items is right in every state. -/
theorem Inv.toNat_available (h : Inv exponent s) (hcapacity : exponent < w) :
    s.queue.available.toNat = s.pushes - s.pops := by
  rw [SpscQueue.available, h.head_eq, h.tail_eq, toNat_ofNat_sub h.pops_le (h.lap hcapacity)]

/-- The test of the producer is right in every state. -/
theorem Inv.isFull_iff (h : Inv exponent s) (hcapacity : exponent < w) :
    SpscQueue.isFull exponent s.queue.head s.queue.tail = true ↔ 2 ^ exponent ≤ s.pushes - s.pops := by
  rw [SpscQueue.isFull, decide_eq_true_iff, ge_iff_le, BitVec.le_def, SpscQueue.capacity,
    BitVec.toNat_ofNat, Nat.mod_eq_of_lt (Nat.pow_lt_pow_right Nat.one_lt_two hcapacity),
    ← SpscQueue.available, h.toNat_available hcapacity]

/-- The test of the consumer is also met by a queue with items when the write index has wrapped once
more. -/
theorem Inv.isEmpty_iff (h : Inv exponent s) (hcapacity : exponent < w) :
    SpscQueue.isEmpty s.queue.head s.queue.tail = true ↔
      s.pushes = s.pops ∨ s.pushes / 2 ^ w ≠ s.pops / 2 ^ w := by
  rw [SpscQueue.isEmpty, decide_eq_true_iff, ge_iff_le, h.head_eq, h.tail_eq,
    ofNat_le_ofNat_iff h.pops_le (h.lap hcapacity)]

theorem Inv.tryPush_isSome_iff (h : Inv exponent s) (hcapacity : exponent < w) (item : α) :
    (s.call exponent (.tryPush item)).isSome = true ↔ s.pushes - s.pops < 2 ^ exponent := by
  rw [call, Option.isSome_map, SpscQueue.tryPush, ← Nat.not_le, ← h.isFull_iff hcapacity]
  split
  case isTrue hfull => simp [hfull]
  case isFalse hfull => simp [hfull]

theorem Inv.tryPop_isSome_iff (h : Inv exponent s) (hcapacity : exponent < w) :
    (s.call exponent .tryPop).isSome = true ↔
      s.pops < s.pushes ∧ s.pushes / 2 ^ w = s.pops / 2 ^ w := by
  have hempty := h.isEmpty_iff hcapacity
  have hle := h.pops_le
  rw [call, Option.isSome_map, SpscQueue.tryPop]
  split
  case isTrue ht =>
    rw [ht] at hempty
    have hcases := hempty.mp rfl
    simp only [Option.isSome_none, Bool.false_eq_true, false_iff, not_and]
    intro hlt hlap
    rcases hcases with heq | hne
    · omega
    · exact hne hlap
  case isFalse ht =>
    rw [hempty, not_or, not_not] at ht
    simp only [Option.isSome_some, true_iff]
    exact ⟨by omega, ht.2⟩

/-- A call is exact when it is a push, and when it is a pop in the same lap. -/
theorem Inv.exact_iff (h : Inv exponent s) (hcapacity : exponent < w) (c : QueueCall α) :
    s.Exact exponent c ↔ s.SameLap c := by
  cases c with
  | tryPush item => exact ⟨fun _ hc => (by cases hc), fun _ => h.tryPush_isSome_iff hcapacity item⟩
  | tryPop =>
    rw [Exact, h.tryPop_isSome_iff hcapacity, Due, and_iff_left_iff_imp]
    constructor
    · intro hlap _
      by_cases hlt : s.pops < s.pushes
      · exact hlap hlt
      · rw [le_antisymm (Nat.le_of_not_lt hlt) h.pops_le]
    · exact fun hlap _ => hlap rfl

/-- A successful call keeps the invariant. -/
theorem Inv.call (h : Inv exponent s) (hcapacity : exponent < w) {c : QueueCall α}
    {s' : CountedQueue w α} (hcall : s.call exponent c = some s') : Inv exponent s' := by
  have hsome : (s.call exponent c).isSome = true := by rw [hcall, Option.isSome_some]
  have hle := h.pops_le
  have hpushes := h.pushes_le
  cases c with
  | tryPush item =>
    rw [h.tryPush_isSome_iff hcapacity] at hsome
    obtain ⟨queue, hpush, rfl⟩ := Option.map_eq_some_iff.mp hcall
    obtain rfl := Option.some.inj (Option.ite_none_left_eq_some.mp hpush).2
    have hroom : s.pushes + 1 ≤ s.pops + 2 ^ exponent := by omega
    exact ⟨congrArg (· + 1) h.head_eq |>.trans (BitVec.ofNat_add _ 1).symm, h.tail_eq,
      Nat.le_succ_of_le hle, hroom⟩
  | tryPop =>
    rw [h.tryPop_isSome_iff hcapacity] at hsome
    obtain ⟨popped, hpop, rfl⟩ := Option.map_eq_some_iff.mp hcall
    obtain rfl := Option.some.inj (Option.ite_none_left_eq_some.mp hpop).2
    have hroom : s.pushes ≤ s.pops + 1 + 2 ^ exponent := by omega
    exact ⟨h.head_eq, congrArg (· + 1) h.tail_eq |>.trans (BitVec.ofNat_add _ 1).symm, hsome.1,
      hroom⟩

theorem Inv.step (h : Inv exponent s) (hcapacity : exponent < w) {c : QueueCall α}
    {s' : CountedQueue w α} (hstep : s.step exponent c = some s') : Inv exponent s' := by
  obtain rfl := Option.some.inj hstep
  cases hcall : s.call exponent c with
  | none => exact h
  | some s' => exact h.call hcapacity hcall

end Tests

/-- In a run every call is exact exactly when every pop of it finds both indices in the same lap. -/
theorem exact_iff_sameLap [Inhabited α] (hcapacity : exponent < w) (calls : List (QueueCall α)) :
    Guarded (step exponent) (Exact exponent) (start : CountedQueue w α) calls ↔
      Guarded (step exponent) SameLap (start : CountedQueue w α) calls := by
  have hinv : ∀ before (s : CountedQueue w α), run (step exponent) start before = some s →
      Inv exponent s := fun before s hrun =>
    run_invariant (fun _ _ _ h hstep => Inv.step h hcapacity hstep) start_inv hrun
  constructor
  · intro h before c s hbefore hrun
    exact ((hinv before s hrun).exact_iff hcapacity c).mp (h before c s hbefore hrun)
  · intro h before c s hbefore hrun
    exact ((hinv before s hrun).exact_iff hcapacity c).mpr (h before c s hbefore hrun)

/-- The queue of the pipeline on 64 bits. -/
theorem exact_iff_sameLap_pop :
    Guarded (step 17) (Exact 17) (start : CountedQueue 64 UInt64) [.tryPush 7, .tryPop, .tryPop] ↔
      Guarded (step 17) SameLap (start : CountedQueue 64 UInt64) [.tryPush 7, .tryPop, .tryPop] :=
  exact_iff_sameLap (by decide) [.tryPush 7, .tryPop, .tryPop]

/-! ## A run to the end of the first lap -/

/-- A push and a pop, a number of times. -/
def pairs (item : α) : ℕ → List (QueueCall α)
  | 0 => []
  | n + 1 => pairs item n ++ [.tryPush item, .tryPop]

/-- A push that is due is completed. -/
theorem Inv.exists_tryPush {s : CountedQueue w α} (h : Inv exponent s) (hcapacity : exponent < w)
    (item : α) (hdue : s.pushes - s.pops < 2 ^ exponent) :
    ∃ s', s.step exponent (.tryPush item) = some s' ∧ Inv exponent s' ∧ s'.pushes = s.pushes + 1 ∧
      s'.pops = s.pops := by
  obtain ⟨s', hcall⟩ := Option.isSome_iff_exists.mp ((h.tryPush_isSome_iff hcapacity item).mpr hdue)
  have hstep : s.step exponent (.tryPush item) = some s' := by
    rw [CountedQueue.step, hcall, Option.getD_some]
  obtain ⟨queue, -, rfl⟩ := Option.map_eq_some_iff.mp hcall
  exact ⟨_, hstep, h.step hcapacity hstep, rfl, rfl⟩

/-- A pop that is due in the same lap is completed. -/
theorem Inv.exists_tryPop {s : CountedQueue w α} (h : Inv exponent s) (hcapacity : exponent < w)
    (hdue : s.pops < s.pushes) (hlap : s.pushes / 2 ^ w = s.pops / 2 ^ w) :
    ∃ s', s.step exponent .tryPop = some s' ∧ Inv exponent s' ∧ s'.pushes = s.pushes ∧
      s'.pops = s.pops + 1 := by
  obtain ⟨s', hcall⟩ :=
    Option.isSome_iff_exists.mp ((h.tryPop_isSome_iff hcapacity).mpr ⟨hdue, hlap⟩)
  have hstep : s.step exponent .tryPop = some s' := by
    rw [CountedQueue.step, hcall, Option.getD_some]
  obtain ⟨popped, -, rfl⟩ := Option.map_eq_some_iff.mp hcall
  exact ⟨_, hstep, h.step hcapacity hstep, rfl, rfl⟩

/-- In the first lap every push and every pop of the pairs is completed. -/
theorem run_pairs [Inhabited α] (hcapacity : exponent < w) (item : α) {n : ℕ} (hn : n < 2 ^ w) :
    ∃ s : CountedQueue w α, run (step exponent) start (pairs item n) = some s ∧ Inv exponent s ∧
      s.pushes = n ∧ s.pops = n := by
  induction n with
  | zero => exact ⟨start, rfl, start_inv, rfl, rfl⟩
  | succ n ih =>
    obtain ⟨s, hrun, hinv, hpushes, hpops⟩ := ih (Nat.lt_of_succ_lt hn)
    have hroom : s.pushes - s.pops < 2 ^ exponent := by
      rw [hpushes, hpops, Nat.sub_self]
      exact Nat.two_pow_pos exponent
    obtain ⟨s₁, hpush, hinv₁, hpushes₁, hpops₁⟩ := hinv.exists_tryPush hcapacity item hroom
    have hlap : s₁.pushes / 2 ^ w = s₁.pops / 2 ^ w := by
      rw [hpushes₁, hpops₁, hpushes, hpops, Nat.div_eq_of_lt hn, Nat.div_eq_of_lt (Nat.lt_of_succ_lt hn)]
    obtain ⟨s₂, hpop, hinv₂, hpushes₂, hpops₂⟩ := hinv₁.exists_tryPop hcapacity (by omega) hlap
    refine ⟨s₂, ?_, hinv₂, by omega, by omega⟩
    rw [pairs, run_append, hrun, Option.bind_some, run, hpush, Option.bind_some, run, hpop,
      Option.bind_some, run]

/-- The pop after the push that wraps the write index is refused although an item is left. -/
theorem not_exact_after_lap [Inhabited α] (hcapacity : exponent < w) (item : α) :
    ¬ Guarded (step exponent) (Exact exponent) (start : CountedQueue w α)
      (pairs item (2 ^ w - 1) ++ [.tryPush item] ++ [.tryPop]) := by
  intro hexact
  have hpos : 0 < 2 ^ w := Nat.two_pow_pos w
  obtain ⟨s, hrun, hinv, hpushes, hpops⟩ := run_pairs hcapacity item (Nat.sub_one_lt_of_lt hpos)
  have hroom : s.pushes - s.pops < 2 ^ exponent := by
    rw [hpushes, hpops, Nat.sub_self]
    exact Nat.two_pow_pos exponent
  obtain ⟨s', hpush, hinv', hpushes', hpops'⟩ := hinv.exists_tryPush hcapacity item hroom
  have hrun' := run_snoc_eq_some_iff.mpr ⟨s, hrun, hpush⟩
  have hlap := (hinv'.exact_iff hcapacity .tryPop).mp (hexact _ _ s' List.prefix_rfl hrun') rfl
  have hlast : 2 ^ w - 1 + 1 = 2 ^ w := Nat.sub_add_cancel hpos
  rw [hpushes', hpops', hpushes, hpops, hlast, Nat.div_self hpos,
    Nat.div_eq_of_lt (Nat.sub_one_lt_of_lt hpos)] at hlap
  contradiction

/-- On 64 bits, with one slot, after `2^64 - 1` pairs and one more push. -/
theorem not_exact_at_wrap :
    ¬ Guarded (step 0) (Exact 0) (start : CountedQueue 64 UInt64)
      (pairs 7 (2 ^ 64 - 1) ++ [.tryPush 7] ++ [.tryPop]) :=
  not_exact_after_lap (by decide) 7

end CountedQueue

end NanoRing
