import NanoRing.Common.RingWindow
import Mathlib.Data.Nat.Bitwise

/-!
# The broadcast journal

A ring of slots with the published index and the slowest consumer's sequence. The pieces of
`tryPublish` and of `reportConsumerProgress` between two atomic accesses are separate
definitions, from which the interleaved models are built. The capacity is a power of two, given
by its exponent. Sequence numbers of type `size_t` are natural numbers: a run that
publishes fewer than `2 ^ 64` items does not wrap them.
-/

namespace NanoRing

/-- The shared fields of a journal; the slots start zeroed. -/
structure BroadcastJournal (α : Type) where
  slots : ℕ → α
  publishedIndex : ℕ
  minConsumerSeq : ℕ

namespace BroadcastJournal

variable {α : Type}

/-- The freshly built journal. -/
def empty [Inhabited α] : BroadcastJournal α where
  slots := fun _ => default
  publishedIndex := 0
  minConsumerSeq := 0

/-- The slot of a sequence number, `sequence & Mask`. -/
def slotOf (exponent sequence : ℕ) : ℕ := sequence &&& (2 ^ exponent - 1)

/-- The test of `tryPublish` against the loaded `minConsumerSeq`. In every run `minSeq ≤ sequence`
(`JournalRun.Capped.min_le`); beyond it the difference of type `size_t` would wrap, this one not. -/
def wouldLap (exponent sequence minSeq : ℕ) : Bool := sequence - minSeq ≥ 2 ^ exponent

/-- The copy of an item into its slot. -/
def copyItem (j : BroadcastJournal α) (exponent sequence : ℕ) (item : α) : BroadcastJournal α :=
  { j with slots := Function.update j.slots (slotOf exponent sequence) item }

/-- The release store that publishes a sequence number. -/
def storePublished (j : BroadcastJournal α) (sequence : ℕ) : BroadcastJournal α :=
  { j with publishedIndex := sequence + 1 }

/-- Publish unconditionally. -/
def publish (j : BroadcastJournal α) (exponent sequence : ℕ) (item : α) : BroadcastJournal α :=
  (j.copyItem exponent sequence item).storePublished sequence

def getPublishedIndex (j : BroadcastJournal α) : ℕ := j.publishedIndex

def getPayload (j : BroadcastJournal α) (exponent sequence : ℕ) : α :=
  j.slots (slotOf exponent sequence)

/-- `reportConsumerProgress` without interference. -/
def reportConsumerProgress (j : BroadcastJournal α) (consumerSeq : ℕ) : BroadcastJournal α :=
  if consumerSeq > j.minConsumerSeq then { j with minConsumerSeq := consumerSeq } else j

/-- Masking a sequence number reduces it modulo the capacity. -/
theorem slotOf_eq (exponent sequence : ℕ) : slotOf exponent sequence = sequence % 2 ^ exponent :=
  Nat.and_two_pow_sub_one_eq_mod sequence exponent

/-- The journal holds the items of a window of sequence numbers. -/
def Window (j : BroadcastJournal α) (exponent : ℕ) (items : ℕ → α) (lo hi : ℕ) : Prop :=
  RingWindow.Holds (2 ^ exponent) j.slots items lo hi

variable {j : BroadcastJournal α} {exponent lo hi : ℕ} {items : ℕ → α}

/-- Copying the next item extends every window that is shorter than the capacity. -/
theorem Window.copyItem (h : j.Window exponent items lo hi) (hroom : hi < lo + 2 ^ exponent) :
    (j.copyItem exponent hi (items hi)).Window exponent items lo (hi + 1) := by
  have hwritten := h.write hroom
  rw [← slotOf_eq] at hwritten
  exact hwritten

/-- A reader inside a window reads the item of its sequence number. -/
theorem Window.getPayload_eq (h : j.Window exponent items lo hi) {s : ℕ} (hlo : lo ≤ s)
    (hhi : s < hi) : j.getPayload exponent s = items s := by
  rw [getPayload, slotOf_eq]
  exact h s hlo hhi

end BroadcastJournal

end NanoRing
