import NanoRing.Queue.SpscFifo

/-!
# The counts that a queue gives

`available` tells the consumer how many items it can pop, `free_slots` the producer how many it can
push. Both load the two indices one after the other, while the other side goes on. An old value is
on the safe side again: as many pops as were counted are not refused, and as many pushes are neither
refused nor made to spin. The consumer counts what had been pushed when it asked, the producer what
is free when it is answered.
-/

namespace NanoRing

open Schedule

namespace SpscQueue

/-- What `available` returns for the loaded indices. -/
def countAvailable {w : ℕ} (h t : BitVec w) : BitVec w := h - t

/-- What `free_slots` returns for the loaded indices. -/
def countFree {w : ℕ} (exponent : ℕ) (h t : BitVec w) : BitVec w := capacity w exponent - (h - t)

end SpscQueue

/-- The two threads, the value of `head_` that a call of `available` or of `free_slots` has loaded,
the number of items that were pushed when `available` was called last, and the numbers of items up to
which the last results allow to pop and to push. -/
structure CountedRun (w : ℕ) (α : Type) where
  threads : SpscRun w α
  inAvailable : Option (BitVec w)
  inFreeSlots : Option (BitVec w)
  askedAt : ℕ
  readableTo : ℕ
  writableTo : ℕ

/-- A step of a push or a pop, or one of the two loads of a count. -/
inductive CountedAction (α : Type)
  | thread (a : SpscAction α)
  | callAvailable
  | endAvailable
  | callFreeSlots
  | endFreeSlots
deriving DecidableEq

namespace CountedRun

variable {w : ℕ} {α : Type}

def start [Inhabited α] : CountedRun w α := ⟨.start, none, none, 0, 0, 0⟩

/-- A thread makes its calls one at a time. -/
def mayTake (s : CountedRun w α) : SpscAction α → Bool
  | .callPush _ _ => s.inFreeSlots.isNone
  | .callPop => s.inAvailable.isNone
  | .produce => true
  | .consume => true

/-- One step of a queue of `2 ^ exponent` slots. -/
def step (exponent : ℕ) (s : CountedRun w α) : CountedAction α → Option (CountedRun w α)
  | .thread a =>
    if s.mayTake a then (s.threads.step exponent a).map fun t => { s with threads := t } else none
  | .callAvailable =>
    match s.threads.consumer, s.inAvailable with
    | .idle _, none => some { s with
        inAvailable := some s.threads.queue.head
        askedAt := s.threads.pushed.length }
    | _, _ => none
  | .endAvailable => s.inAvailable.map fun h =>
    { s with
      inAvailable := none
      readableTo := s.threads.popped.length +
        (SpscQueue.countAvailable h s.threads.queue.tail).toNat }
  | .callFreeSlots =>
    match s.threads.producer, s.inFreeSlots with
    | .idle _, none => some { s with inFreeSlots := some s.threads.queue.head }
    | _, _ => none
  | .endFreeSlots => s.inFreeSlots.map fun h =>
    { s with
      inFreeSlots := none
      writableTo := s.threads.pushed.length +
        (SpscQueue.countFree exponent h s.threads.queue.tail).toNat }

/-- The counts are promises: what was counted is there, and the test of a call that was counted is
passed at once. And they are exact: one for the moment of the call, the other for that of the
answer. -/
structure Kept (exponent : ℕ) (s : CountedRun w α) : Prop where
  readable : s.readableTo ≤ s.threads.pushed.length
  writable : s.writableTo ≤ s.threads.popped.length + 2 ^ exponent
  pop : ∀ t, s.threads.consumer = .loadHead t → s.threads.popped.length < s.readableTo →
    s.threads.consume exponent = some { s.threads with consumer := .copyOut t }
  push : ∀ call item h, s.threads.producer = .loadTail call item h →
    s.threads.pushed.length < s.writableTo →
    s.threads.produce exponent = some { s.threads with producer := .copyIn item h }
  available_eq : ∀ s', s.step exponent .endAvailable = some s' → s'.readableTo = s.askedAt
  freeSlots_eq : ∀ s', s.step exponent .endFreeSlots = some s' →
    s'.writableTo = s.threads.popped.length + 2 ^ exponent

/-! ### What a step of one side leaves to the other -/

section Frame

variable {exponent : ℕ} {t t' : SpscRun w α}

theorem callPush_frame {call : PushCall} {item : α} (h : t.callPush call item = some t') :
    t'.consumer = t.consumer ∧ t'.popped = t.popped := by
  unfold SpscRun.callPush at h
  split at h
  · exact Option.some.inj h ▸ ⟨rfl, rfl⟩
  · contradiction

theorem produce_frame (h : t.produce exponent = some t') :
    t'.consumer = t.consumer ∧ t'.popped = t.popped := by
  cases SpscRun.produces_of_step h with
  | refused | spun | admitted | copiedIn | stored => exact ⟨rfl, rfl⟩

theorem callPop_frame (h : t.callPop = some t') :
    t'.producer = t.producer ∧ t'.queue.head = t.queue.head ∧ t'.popped = t.popped := by
  unfold SpscRun.callPop at h
  split at h
  · exact Option.some.inj h ▸ ⟨rfl, rfl, rfl⟩
  · contradiction

theorem consume_frame (h : t.consume exponent = some t') :
    t'.producer = t.producer ∧ t'.queue.head = t.queue.head ∧ t.popped <+: t'.popped := by
  cases SpscRun.consumes_of_step h with
  | refused | admitted | copiedOut => exact ⟨rfl, rfl, List.prefix_rfl⟩
  | stored => exact ⟨rfl, rfl, List.prefix_append _ _⟩

/-- No step takes a popped item back. -/
theorem popped_prefix_of_step {a : SpscAction α} (h : t.step exponent a = some t') :
    t.popped <+: t'.popped := by
  cases a with
  | callPush call item => exact (callPush_frame h).2 ▸ List.prefix_rfl
  | produce => exact (produce_frame h).2 ▸ List.prefix_rfl
  | callPop => exact (callPop_frame h).2.2 ▸ List.prefix_rfl
  | consume => exact (consume_frame h).2.2

/-- While the consumer is between calls, nothing is popped. -/
theorem idle_consumer_of_step {a : SpscAction α} (h : t.step exponent a = some t')
    (hidle : ∃ refused, t.consumer = .idle refused) (hcall : a ≠ .callPop) :
    t'.consumer = t.consumer ∧ t'.popped = t.popped := by
  cases a with
  | callPush call item => exact callPush_frame h
  | produce => exact produce_frame h
  | callPop => exact absurd rfl hcall
  | consume =>
    obtain ⟨refused, hidle⟩ := hidle
    rw [SpscRun.step, SpscRun.consume, hidle] at h
    contradiction

/-- While the producer is between calls, the write position stays where it is. -/
theorem idle_producer_of_step {a : SpscAction α} (h : t.step exponent a = some t')
    (hidle : ∃ refused, t.producer = .idle refused) (hcall : ∀ call item, a ≠ .callPush call item) :
    t'.producer = t.producer ∧ t'.queue.head = t.queue.head := by
  cases a with
  | callPush call item => exact absurd rfl (hcall call item)
  | produce =>
    obtain ⟨refused, hidle⟩ := hidle
    rw [SpscRun.step, SpscRun.produce, hidle] at h
    contradiction
  | callPop => exact ⟨(callPop_frame h).1, (callPop_frame h).2.1⟩
  | consume => exact ⟨(consume_frame h).1, (consume_frame h).2.1⟩

end Frame

/-! ### The invariant -/

section Invariant

variable [Inhabited α] {exponent : ℕ} {s s' : CountedRun w α}

/-- What a count has loaded is not ahead of the queue, and what it has promised is there. -/
structure Inv (exponent : ℕ) (s : CountedRun w α) : Prop where
  threads : SpscRun.Inv exponent s.threads
  inAvailable : ∀ h, s.inAvailable = some h → (∃ refused, s.threads.consumer = .idle refused) ∧
    h.toNat = s.askedAt ∧ s.threads.popped.length ≤ h.toNat ∧ h.toNat ≤ s.threads.pushed.length
  inFreeSlots : ∀ h, s.inFreeSlots = some h → (∃ refused, s.threads.producer = .idle refused) ∧
    h = s.threads.queue.head
  readable : s.readableTo ≤ s.threads.pushed.length
  writable : s.writableTo ≤ s.threads.popped.length + 2 ^ exponent

theorem start_inv (exponent : ℕ) : Inv exponent (start : CountedRun w α) where
  threads := SpscRun.start_inv exponent
  inAvailable := nofun
  inFreeSlots := nofun
  readable := Nat.zero_le _
  writable := Nat.zero_le _

/-- A step of a thread keeps what the counts of the other one rest on. -/
theorem Inv.thread (h : Inv exponent s) {a : SpscAction α} {t : SpscRun w α}
    (hmay : s.mayTake a = true) (hstep : s.threads.step exponent a = some t)
    (hthreads : SpscRun.Inv exponent t) : Inv exponent { s with threads := t } := by
  have hpushed := (SpscRun.pushed_prefix_of_step hstep).length_le
  have hpopped := (popped_prefix_of_step hstep).length_le
  refine ⟨hthreads, fun head hhead => ?_, fun head hhead => ?_, h.readable.trans hpushed,
    h.writable.trans (Nat.add_le_add_right hpopped _)⟩
  · obtain ⟨hidle, hasked, hlow, hhigh⟩ := h.inAvailable head hhead
    have hcall : a ≠ .callPop := by
      rintro rfl
      rw [mayTake, hhead] at hmay
      contradiction
    obtain ⟨hconsumer, hsame⟩ := idle_consumer_of_step hstep hidle hcall
    refine ⟨hconsumer.symm ▸ hidle, hasked, ?_, hhigh.trans hpushed⟩
    rw [hsame]
    exact hlow
  · obtain ⟨hidle, heq⟩ := h.inFreeSlots head hhead
    have hcall : ∀ call item, a ≠ .callPush call item := by
      rintro call item rfl
      rw [mayTake, hhead] at hmay
      contradiction
    obtain ⟨hproducer, hsame⟩ := idle_producer_of_step hstep hidle hcall
    exact ⟨hproducer.symm ▸ hidle, heq.trans hsame.symm⟩

/-- `available` counts up to the write position that it has loaded. -/
theorem Inv.popped_add_countAvailable (h : Inv exponent s) {head : BitVec w}
    (hhead : s.inAvailable = some head) :
    s.threads.popped.length + (SpscQueue.countAvailable head s.threads.queue.tail).toNat =
      head.toNat := by
  obtain ⟨-, -, hlow, -⟩ := h.inAvailable head hhead
  have htail := h.threads.tail_eq
  have hle : s.threads.queue.tail ≤ head := BitVec.le_def.mpr (htail ▸ hlow)
  rw [SpscQueue.countAvailable, BitVec.toNat_sub_of_le hle, htail]
  exact Nat.add_sub_of_le hlow

/-- `free_slots` counts up to a capacity beyond the read position that it has loaded. -/
theorem Inv.pushed_add_countFree (h : Inv exponent s) (hcapacity : exponent < w) {head : BitVec w}
    (hhead : s.inFreeSlots = some head) :
    s.threads.pushed.length + (SpscQueue.countFree exponent head s.threads.queue.tail).toNat =
      s.threads.popped.length + 2 ^ exponent := by
  obtain ⟨-, rfl⟩ := h.inFreeSlots head hhead
  have havailable := h.threads.holds.toNat_available
  have hpopped := h.threads.popped.length_le
  have hpushed := h.threads.pushed_le
  have hcap : (SpscQueue.capacity w exponent).toNat = 2 ^ exponent := by
    rw [SpscQueue.capacity, BitVec.toNat_ofNat,
      Nat.mod_eq_of_lt (Nat.pow_lt_pow_right Nat.one_lt_two hcapacity)]
  have hle : s.threads.queue.available ≤ SpscQueue.capacity w exponent := by
    rw [BitVec.le_def, havailable, hcap]
    omega
  rw [SpscQueue.countFree, ← SpscQueue.available, BitVec.toNat_sub_of_le hle, hcap, havailable]
  omega

/-- The loads of the counts keep the invariant. -/
theorem Inv.count (h : Inv exponent s) (hcapacity : exponent < w) {a : CountedAction α}
    (hcount : ∀ b, a ≠ .thread b) (hstep : s.step exponent a = some s') : Inv exponent s' := by
  cases a with
  | thread b => exact absurd rfl (hcount b)
  | callAvailable =>
    rw [step] at hstep
    split at hstep
    case h_1 refused hidle _ =>
      obtain rfl := Option.some.inj hstep
      refine ⟨h.threads, fun head hhead => ⟨⟨refused, hidle⟩, ?_⟩, h.inFreeSlots, h.readable,
        h.writable⟩
      obtain rfl := Option.some.inj hhead
      rw [h.threads.head_eq]
      exact ⟨rfl, h.threads.popped.length_le, le_rfl⟩
    case h_2 => contradiction
  | endAvailable =>
    obtain ⟨head, hhead, rfl⟩ := Option.map_eq_some_iff.mp hstep
    refine ⟨h.threads, nofun, h.inFreeSlots, ?_, h.writable⟩
    dsimp only
    rw [h.popped_add_countAvailable hhead]
    exact (h.inAvailable head hhead).2.2.2
  | callFreeSlots =>
    rw [step] at hstep
    split at hstep
    case h_1 refused hidle _ =>
      obtain rfl := Option.some.inj hstep
      refine ⟨h.threads, h.inAvailable, fun head hhead => ⟨⟨refused, hidle⟩, ?_⟩, h.readable,
        h.writable⟩
      exact (Option.some.inj hhead).symm
    case h_2 => contradiction
  | endFreeSlots =>
    obtain ⟨head, hhead, rfl⟩ := Option.map_eq_some_iff.mp hstep
    refine ⟨h.threads, h.inAvailable, nofun, h.readable, ?_⟩
    exact (h.pushed_add_countFree hcapacity hhead).le

theorem Inv.kept (h : Inv exponent s) (hcapacity : exponent < w) : Kept exponent s where
  readable := h.readable
  writable := h.writable
  pop := fun t hpc hcounted => by
    have hsound := h.threads.consumer
    rw [SpscRun.ConsumerSound, hpc] at hsound
    obtain rfl := hsound
    have hne : ¬ SpscQueue.isEmpty s.threads.queue.head s.threads.queue.tail := fun hempty =>
      absurd (h.threads.holds.isEmpty_iff.mp hempty) (hcounted.trans_le h.readable).ne
    rw [SpscRun.consume, hpc]
    exact if_neg hne
  push := fun call item head hpc hcounted => by
    have hsound := h.threads.producer
    rw [SpscRun.ProducerSound, hpc] at hsound
    obtain rfl := hsound
    have hroom : ¬ SpscQueue.isFull exponent s.threads.queue.head s.threads.queue.tail :=
      fun hfull => absurd ((h.threads.holds.isFull_iff hcapacity).mp hfull)
        (Nat.not_le.mpr (hcounted.trans_le h.writable))
    rw [SpscRun.produce, hpc]
    exact if_neg hroom
  available_eq := fun s' hstep => by
    obtain ⟨head, hhead, rfl⟩ := Option.map_eq_some_iff.mp hstep
    exact (h.popped_add_countAvailable hhead).trans (h.inAvailable head hhead).2.1
  freeSlots_eq := fun s' hstep => by
    obtain ⟨head, hhead, rfl⟩ := Option.map_eq_some_iff.mp hstep
    exact h.pushed_add_countFree hcapacity hhead

end Invariant

/-! ### Runs -/

/-- Only a step of a thread changes the threads. -/
theorem pushed_prefix_of_step {exponent : ℕ} {s s' : CountedRun w α} {a : CountedAction α}
    (h : s.step exponent a = some s') : s.threads.pushed <+: s'.threads.pushed := by
  cases a with
  | thread b =>
    rw [step] at h
    split at h
    case isTrue =>
      obtain ⟨t, hstep, rfl⟩ := Option.map_eq_some_iff.mp h
      exact SpscRun.pushed_prefix_of_step hstep
    case isFalse => contradiction
  | callAvailable | callFreeSlots =>
    rw [step] at h
    split at h
    case h_1 => exact Option.some.inj h ▸ List.prefix_rfl
    case h_2 => contradiction
  | endAvailable | endFreeSlots =>
    obtain ⟨head, -, rfl⟩ := Option.map_eq_some_iff.mp h
    exact List.prefix_rfl

variable [Inhabited α]

/-- The invariant holds until the write position wraps. -/
def Sound (exponent : ℕ) (s : CountedRun w α) : Prop :=
  s.threads.pushed.length < 2 ^ w → Inv exponent s

theorem Sound.step {exponent : ℕ} {s s' : CountedRun w α} (h : Sound exponent s)
    (hcapacity : exponent < w) {a : CountedAction α} (hstep : s.step exponent a = some s') :
    Sound exponent s' := by
  intro hbound
  have hinv := h ((pushed_prefix_of_step hstep).length_le.trans_lt hbound)
  cases a with
  | thread b =>
    rw [CountedRun.step] at hstep
    split at hstep
    case isTrue hmay =>
      obtain ⟨t, ht, rfl⟩ := Option.map_eq_some_iff.mp hstep
      have hsound : SpscRun.Sound exponent t :=
        SpscRun.Sound.step (fun _ => hinv.threads) hcapacity ht
      exact hinv.thread hmay ht (hsound hbound)
    case isFalse => contradiction
  | callAvailable | endAvailable | callFreeSlots | endFreeSlots =>
    exact hinv.count hcapacity (fun b hsame => by contradiction) hstep

/-- In every interleaving in which the write position does not wrap, the counts are kept: as many
pops as `available` has counted are not refused, and as many pushes as `free_slots` has counted
neither refused nor made to spin. `available` counts every item that had been pushed when it was
called, `free_slots` every slot that is free when it returns. -/
theorem counts_kept {exponent : ℕ} (hcapacity : exponent < 64) {s : CountedRun 64 α}
    {actions : List (CountedAction α)} (hrun : run (CountedRun.step exponent) start actions = some s)
    (hpushed : s.threads.pushed.length < 2 ^ 64) : Kept exponent s := by
  have hsound : Sound exponent s :=
    run_invariant (fun _ _ _ ih hstep => ih.step hcapacity hstep) (fun _ => start_inv exponent) hrun
  exact (hsound hpushed).kept hcapacity

/-- In a queue of two slots, the consumer counts the first item while the second is pushed. -/
def countedBetween : List (CountedAction ℕ) :=
  [.thread (.callPush .push 7), .thread .produce, .thread .produce, .thread .produce,
    .callFreeSlots, .callAvailable, .endFreeSlots, .thread (.callPush .push 8), .thread .produce,
    .thread .produce, .thread .produce, .endAvailable, .thread .callPop]

theorem countedBetween_kept :
    ∃ s : CountedRun 64 ℕ, run (CountedRun.step 1) start countedBetween = some s ∧
      s.readableTo = 1 ∧ s.writableTo = 2 ∧ s.threads.consumer = .loadHead 0 ∧ Kept 1 s := by
  refine ⟨_, rfl, rfl, rfl, rfl, counts_kept ?_ (rfl : run _ start countedBetween = some _) ?_⟩
  · decide
  · decide

end CountedRun

end NanoRing
