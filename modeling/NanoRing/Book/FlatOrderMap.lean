import NanoRing.Common.ProbeLoop
import NanoRing.Feed.ItchMessages
import Mathlib.Logic.Function.Basic

/-!
# The flat order map

The hash map from order references to live orders: one array of slots, linear probing,
tombstones for erased entries, and growth by doubling. An array is a function of its
index, of which only indices below the capacity are used.

The sizes are natural numbers. A table of `2 ^ 60` slots does not fit in memory, so no
`size_t` computation on them wraps. The loop of `insert` and the inner loop of `rehash`
have no bound in the source; here they may visit every slot once, and an insertion that
finds no place leaves the map unchanged.
-/

namespace NanoRing

open ProbeLoop

/-- Per-order record, stored inline in the slots of the map. -/
structure LiveOrder where
  orderRef : UInt64 := 0
  price : UInt32 := 0
  remainingShares : UInt32 := 0
  side : UInt8 := 0
  occupied : Bool := false
deriving DecidableEq, Repr, Inhabited

/-- The open-addressing table of live orders. -/
structure FlatOrderMap where
  slots : ℕ → LiveOrder
  capacity : ℕ
  mask : ℕ
  size : ℕ

namespace FlatOrderMap

def defaultCapacity : ℕ := 2 ^ 20

/-- The reference of a slot that was never used; also a legal order reference. -/
def EMPTY : UInt64 := 0

/-- The reference left in an erased slot; also a legal order reference. -/
def TOMBSTONE : UInt64 := ~~~0

/-- The freshly built map, whose slots are all zero. -/
def empty : FlatOrderMap where
  slots := fun _ => {}
  capacity := defaultCapacity
  mask := defaultCapacity - 1
  size := 0

def hash (key : UInt64) : UInt64 :=
  let key := key ^^^ (key >>> 33)
  let key := key * 0xff51afd7ed558ccd
  let key := key ^^^ (key >>> 33)
  let key := key * 0xc4ceb9fe1a85ec53
  key ^^^ (key >>> 33)

/-- The slot index at which the probe path of a reference starts. -/
def home (m : FlatOrderMap) (orderRef : UInt64) : ℕ := (hash orderRef).toNat &&& m.mask

/-- The slot index that follows `idx` on every probe path. -/
def next (m : FlatOrderMap) (idx : ℕ) : ℕ := (idx + 1) &&& m.mask

/-- One iteration of `find`: `some none` is the null return, `none` continues the loop. -/
def findVisit (m : FlatOrderMap) (orderRef : UInt64) (idx : ℕ) : Option (Option ℕ) :=
  let slot := m.slots idx
  if !slot.occupied && slot.orderRef == EMPTY then some none
  else if slot.occupied && slot.orderRef == orderRef then some (some idx)
  else none

/-- The slot index of a live reference; the pointer that the source returns. -/
def find (m : FlatOrderMap) (orderRef : UInt64) : Option ℕ :=
  (probe (m.findVisit orderRef) m.next m.capacity (m.home orderRef)).join

/-- The record behind the pointer that `find` returns. -/
def lookup (m : FlatOrderMap) (orderRef : UInt64) : Option LiveOrder :=
  (m.find orderRef).map m.slots

/-- The record that `insert` stores: the given one, under the given reference. -/
def stored (orderRef : UInt64) (order : LiveOrder) : LiveOrder :=
  { order with orderRef := orderRef, occupied := true }

/-- The inner loop of `rehash`: the first slot of the new array that is not occupied. -/
def rehashSlot (newSlots : ℕ → LiveOrder) (newCap newMask : ℕ) (orderRef : UInt64) : Option ℕ :=
  probe (fun idx => if (newSlots idx).occupied then none else some idx)
    (fun idx => (idx + 1) &&& newMask) newCap ((hash orderRef).toNat &&& newMask)

/-- One iteration of the outer loop of `rehash`, for the old slot `i`. -/
def rehashStep (m : FlatOrderMap) (newCap newMask : ℕ) (newSlots : ℕ → LiveOrder) (i : ℕ) :
    ℕ → LiveOrder :=
  if (m.slots i).occupied then
    match rehashSlot newSlots newCap newMask (m.slots i).orderRef with
    | some idx => Function.update newSlots idx (m.slots i)
    | none => newSlots
  else newSlots

/-- Re-place every occupied slot into a fresh array of twice the capacity. -/
def rehash (m : FlatOrderMap) : FlatOrderMap :=
  let newCap := m.capacity * 2
  let newMask := newCap - 1
  { slots := (List.range m.capacity).foldl (m.rehashStep newCap newMask) fun _ => {}
    capacity := newCap
    mask := newMask
    size := m.size }

/-- The growth test at the head of `insert`. -/
def grown (m : FlatOrderMap) : FlatOrderMap :=
  if m.size * 4 ≥ m.capacity * 3 then m.rehash else m

/-- One iteration of `insert`: the map it returns, or `none` to continue. -/
def insertVisit (m : FlatOrderMap) (orderRef : UInt64) (order : LiveOrder) (idx : ℕ) :
    Option FlatOrderMap :=
  let slot := m.slots idx
  if !slot.occupied then
    some { m with slots := Function.update m.slots idx (stored orderRef order), size := m.size + 1 }
  else if slot.orderRef == orderRef then
    some { m with slots := Function.update m.slots idx (stored orderRef order) }
  else none

def insert (m : FlatOrderMap) (orderRef : UInt64) (order : LiveOrder) : FlatOrderMap :=
  let m := m.grown
  (probe (m.insertVisit orderRef order) m.next m.capacity (m.home orderRef)).getD m

/-- One iteration of `erase`: the map it returns, or `none` to continue. -/
def eraseVisit (m : FlatOrderMap) (orderRef : UInt64) (idx : ℕ) : Option FlatOrderMap :=
  let slot := m.slots idx
  if !slot.occupied && slot.orderRef == EMPTY then some m
  else if slot.occupied && slot.orderRef == orderRef then
    let freed := { slot with occupied := false, orderRef := TOMBSTONE }
    some { m with slots := Function.update m.slots idx freed, size := m.size - 1 }
  else none

def erase (m : FlatOrderMap) (orderRef : UInt64) : FlatOrderMap :=
  (probe (m.eraseVisit orderRef) m.next m.capacity (m.home orderRef)).getD m

/-- The write through the pointer that `find` returned. -/
def setRemaining (m : FlatOrderMap) (idx : ℕ) (remaining : UInt32) : FlatOrderMap :=
  let slot := { m.slots idx with remainingShares := remaining }
  { m with slots := Function.update m.slots idx slot }

end FlatOrderMap

end NanoRing
