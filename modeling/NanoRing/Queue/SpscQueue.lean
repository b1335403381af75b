import NanoRing.Common.RingWindow
import Mathlib.Data.Nat.Bitwise

/-!
# The single-producer single-consumer queue

A ring of slots with a write position and a read position. Both are counters of type `size_t`,
of `w` bits, and are reduced to a slot only when a slot is accessed. The tests and the copies
that lie between two atomic accesses are separate definitions, from which the operations are
built. The capacity is a power of two, given by its exponent.
-/

namespace NanoRing

/-- The fields of a queue; the slots start zeroed. -/
structure SpscQueue (w : ℕ) (α : Type) where
  slots : ℕ → α
  head : BitVec w
  tail : BitVec w

namespace SpscQueue

variable {w : ℕ} {α : Type}

/-- The freshly built queue. -/
def empty [Inhabited α] : SpscQueue w α where
  slots := fun _ => default
  head := 0
  tail := 0

/-- `Capacity`. -/
def capacity (w exponent : ℕ) : BitVec w := BitVec.ofNat w (2 ^ exponent)

/-- `Mask`, one less than the capacity. -/
def mask (w exponent : ℕ) : BitVec w := BitVec.ofNat w (2 ^ exponent - 1)

/-- The slot of a position, `position & Mask`. -/
def slotOf (exponent : ℕ) (position : BitVec w) : ℕ := (position &&& mask w exponent).toNat

/-- The test of the producer, `h - t >= Capacity`. -/
def isFull (exponent : ℕ) (h t : BitVec w) : Bool := h - t ≥ capacity w exponent

/-- The test of the consumer, `t >= h`. -/
def isEmpty (h t : BitVec w) : Bool := t ≥ h

/-- The copy of an item into the slot of the write position `h`. -/
def copyIn (q : SpscQueue w α) (exponent : ℕ) (h : BitVec w) (item : α) : SpscQueue w α :=
  { q with slots := Function.update q.slots (slotOf exponent h) item }

/-- The copy of the item out of the slot of the read position `t`. -/
def copyOut (q : SpscQueue w α) (exponent : ℕ) (t : BitVec w) : α := q.slots (slotOf exponent t)

/-- The copy of an item into the slot of the write position `h`, and the store of the next one. -/
def enqueue (q : SpscQueue w α) (exponent : ℕ) (h : BitVec w) (item : α) : SpscQueue w α :=
  { q with
    slots := Function.update q.slots (slotOf exponent h) item
    head := h + 1 }

/-- Enqueue one item; `none` while the queue is full and the caller has to spin. -/
def push (q : SpscQueue w α) (exponent : ℕ) (item : α) : Option (SpscQueue w α) :=
  if isFull exponent q.head q.tail then none else some (q.enqueue exponent q.head item)

/-- Dequeue one item; `none` when the queue is empty. -/
def tryPop (q : SpscQueue w α) (exponent : ℕ) : Option (α × SpscQueue w α) :=
  if isEmpty q.head q.tail then none
  else some (q.slots (slotOf exponent q.tail), { q with tail := q.tail + 1 })

/-- The number of items that are available to read. -/
def available (q : SpscQueue w α) : BitVec w := q.head - q.tail

/-- Masking a position reduces it modulo the capacity. -/
theorem slotOf_eq {exponent : ℕ} (hcapacity : exponent < w) (position : BitVec w) :
    slotOf exponent position = position.toNat % 2 ^ exponent := by
  have hmask : 2 ^ exponent - 1 < 2 ^ w :=
    (Nat.sub_le _ _).trans_lt (Nat.pow_lt_pow_right Nat.one_lt_two hcapacity)
  rw [slotOf, mask, BitVec.toNat_and, BitVec.toNat_ofNat, Nat.mod_eq_of_lt hmask,
    Nat.and_two_pow_sub_one_eq_mod]

/-- A position that does not wrap counts up by one. -/
theorem toNat_succ {position : BitVec w} (hw : 0 < w) (h : position.toNat + 1 < 2 ^ w) :
    (position + 1).toNat = position.toNat + 1 := by
  have hone : BitVec.toNat (1 : BitVec w) = 1 := BitVec.toNat_one hw
  rw [BitVec.toNat_add_of_lt (hone.symm ▸ h), hone]

/-- The queue holds the items of a sequence from the number popped up to the number pushed. -/
structure Holds (exponent : ℕ) (q : SpscQueue w α) (items : ℕ → α) (popped pushed : ℕ) :
    Prop where
  head_eq : q.head.toNat = pushed
  tail_eq : q.tail.toNat = popped
  popped_le : popped ≤ pushed
  pushed_le : pushed ≤ popped + 2 ^ exponent
  window : RingWindow.Holds (2 ^ exponent) q.slots items popped pushed

section Operations

variable {exponent popped pushed : ℕ} {q q' : SpscQueue w α} {items : ℕ → α}

theorem empty_holds [Inhabited α] (exponent : ℕ) (items : ℕ → α) :
    Holds exponent (empty : SpscQueue w α) items 0 0 where
  head_eq := BitVec.toNat_zero
  tail_eq := BitVec.toNat_zero
  popped_le := le_rfl
  pushed_le := Nat.zero_le _
  window := RingWindow.holds_of_le le_rfl

/-- The number of items that are available, unless the counters have wrapped. -/
theorem Holds.toNat_available (h : Holds exponent q items popped pushed) :
    q.available.toNat = pushed - popped := by
  have hle : q.tail ≤ q.head := by
    rw [BitVec.le_def, h.tail_eq, h.head_eq]
    exact h.popped_le
  rw [available, BitVec.toNat_sub_of_le hle, h.head_eq, h.tail_eq]

/-- The producer sees a full queue when a whole capacity has not been popped. -/
theorem Holds.isFull_iff (h : Holds exponent q items popped pushed) (hcapacity : exponent < w) :
    isFull exponent q.head q.tail = true ↔ popped + 2 ^ exponent ≤ pushed := by
  have havailable := h.toNat_available
  have hle := h.popped_le
  rw [isFull, decide_eq_true_iff, ge_iff_le, BitVec.le_def, capacity, BitVec.toNat_ofNat,
    Nat.mod_eq_of_lt (Nat.pow_lt_pow_right Nat.one_lt_two hcapacity), ← available, havailable]
  omega

/-- The consumer sees an empty queue when every item has been popped. -/
theorem Holds.isEmpty_iff (h : Holds exponent q items popped pushed) :
    isEmpty q.head q.tail = true ↔ popped = pushed := by
  have hle := h.popped_le
  rw [isEmpty, decide_eq_true_iff, ge_iff_le, BitVec.le_def, h.head_eq, h.tail_eq]
  omega

/-- A push of the next item makes the queue hold it too. -/
theorem Holds.push (h : Holds exponent q items popped pushed) (hcapacity : exponent < w)
    (hbound : pushed + 1 < 2 ^ w) (hpush : q.push exponent (items pushed) = some q') :
    Holds exponent q' items popped (pushed + 1) ∧ q'.tail = q.tail := by
  unfold SpscQueue.push at hpush
  split at hpush
  · contradiction
  · rename_i hfull
    obtain rfl := Option.some.inj hpush
    have hroom : pushed < popped + 2 ^ exponent :=
      Nat.lt_of_not_le fun hle => hfull ((h.isFull_iff hcapacity).mpr hle)
    have hwindow := h.window.write hroom
    rw [← h.head_eq, ← slotOf_eq hcapacity, h.head_eq] at hwindow
    refine ⟨⟨?_, h.tail_eq, h.popped_le.trans (Nat.le_succ _), hroom, hwindow⟩, rfl⟩
    have hsucc : (q.head + 1).toNat = q.head.toNat + 1 :=
      toNat_succ (Nat.zero_lt_of_lt hcapacity) (h.head_eq.symm ▸ hbound)
    rw [h.head_eq] at hsucc
    exact hsucc

/-- A pop takes the oldest item out of the queue. -/
theorem Holds.tryPop (h : Holds exponent q items popped pushed) (hcapacity : exponent < w)
    {item : α} (hpop : q.tryPop exponent = some (item, q')) :
    popped < pushed ∧ item = items popped ∧ Holds exponent q' items (popped + 1) pushed := by
  unfold SpscQueue.tryPop at hpop
  split at hpop
  · contradiction
  · rename_i hnonempty
    obtain ⟨rfl, rfl⟩ := Prod.mk.injEq _ _ _ _ ▸ Option.some.inj hpop
    have hlt : popped < pushed :=
      h.popped_le.lt_of_ne fun heq => hnonempty (h.isEmpty_iff.mpr heq)
    have hbound : q.tail.toNat + 1 < 2 ^ w := by
      have hhead := q.head.isLt
      rw [h.head_eq] at hhead
      rw [h.tail_eq]
      omega
    have hsucc := toNat_succ (Nat.zero_lt_of_lt hcapacity) hbound
    refine ⟨hlt, ?_, h.head_eq, ?_, hlt, ?_, h.window.mono (Nat.le_succ _) le_rfl⟩
    · rw [slotOf_eq hcapacity, h.tail_eq]
      exact h.window popped le_rfl hlt
    · rw [h.tail_eq] at hsucc
      exact hsucc
    · exact h.pushed_le.trans (by omega)

end Operations

end SpscQueue

end NanoRing
