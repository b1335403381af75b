import NanoRing.Book.ListedPrices
import NanoRing.Book.OrderBook
import NanoRing.Common.Schedule

/-!
# Level helper calls of a message

A handler changes the level arrays only through `add_to_levels` and `remove_from_levels`:
one call for an Add, an Execute or a Delete, two for a Replace, none for a reference that
is not found. What both helpers keep therefore holds of the arrays after any messages.
-/

namespace NanoRing

namespace BookSide

variable {s : BookSide} {descending : Bool}

/-- What holds of a level array whatever the messages were. -/
structure Ranked (s : BookSide) (descending : Bool) : Prop where
  sorted : s.Sorted descending
  bounded : s.count ≤ maxLevels

/-- The empty side is ranked. -/
theorem ranked_empty (descending : Bool) : ({} : BookSide).Ranked descending :=
  ⟨sorted_empty descending, Nat.zero_le _⟩

/-- Adding shares never exceeds the array. -/
theorem Ranked.addToLevels (h : s.Ranked descending) (price shares : UInt32) :
    (s.addToLevels price shares descending).Ranked descending := by
  obtain ⟨hsorted, hresult⟩ := h.sorted.addToLevels_spec price shares
  have hbounded := h.bounded
  refine ⟨hsorted, ?_⟩
  cases hresult with
  | bumped _ _ _ hcount _ => omega
  | inserted _ hroom hcount _ => omega
  | refused _ _ hsame => rwa [hsame]

/-- Removing shares adds no level. -/
theorem Ranked.removeFromLevels (h : s.Ranked descending) (price shares : UInt32) :
    (s.removeFromLevels price shares descending).Ranked descending := by
  obtain ⟨hsorted, hresult⟩ := h.sorted.removeFromLevels_spec price shares
  have hbounded := h.bounded
  refine ⟨hsorted, ?_⟩
  cases hresult with
  | absent _ hsame => rwa [hsame]
  | removed _ _ _ _ hcount _ => omega
  | reduced _ _ _ _ hcount _ => omega

/-- A removal makes room on a full side exactly when it takes a level away. -/
theorem Ranked.refuses_removeFromLevels_iff (hs : s.Ranked descending)
    (removed shares price : UInt32) :
    (s.removeFromLevels removed shares descending).Refuses price ↔
      s.Refuses price ∧ ¬ s.Covers removed shares := by
  obtain ⟨hcovers, hkept⟩ := hs.sorted.count_removeFromLevels removed shares
  have hmem := hs.sorted.mem_prices_removeFromLevels removed shares price
  have hbounded := hs.bounded
  unfold Refuses
  by_cases h : s.Covers removed shares
  · have hcount := hcovers h
    exact ⟨fun hfull => by omega, fun hfull => absurd h hfull.2⟩
  · rw [hkept h, hmem]
    simp only [h, and_false, not_false_eq_true, and_true]

end BookSide

/-- A call of one of the level helpers, on the array that the side byte selects. -/
inductive LevelCall
  | add (side : UInt8) (price shares : UInt32)
  | remove (side : UInt8) (price shares : UInt32)
deriving DecidableEq, Repr

/-- The two level arrays of a book. -/
structure LevelArrays where
  bids : BookSide := {}
  asks : BookSide := {}

namespace LevelArrays

/-- The array that a side byte selects. -/
def array (a : LevelArrays) (side : UInt8) : BookSide := if side == sideBuy then a.bids else a.asks

def setArray (a : LevelArrays) (side : UInt8) (s : BookSide) : LevelArrays :=
  if side == sideBuy then { a with bids := s } else { a with asks := s }

def call (a : LevelArrays) : LevelCall → LevelArrays
  | .add side price shares =>
    a.setArray side ((a.array side).addToLevels price shares (side == sideBuy))
  | .remove side price shares =>
    a.setArray side ((a.array side).removeFromLevels price shares (side == sideBuy))

/-- The arrays after a list of calls, in order. -/
def callAll (a : LevelArrays) (calls : List LevelCall) : LevelArrays := calls.foldl call a

/-- Both arrays are ranked, the bids by descending price. -/
def Ranked (a : LevelArrays) : Prop := ∀ side, (a.array side).Ranked (side == sideBuy)

/-- A write to one array is seen by the side bytes that select it. -/
theorem array_setArray (a : LevelArrays) (side side' : UInt8) (s : BookSide) :
    (a.setArray side s).array side' =
      if (side' == sideBuy) = (side == sideBuy) then s else a.array side' := by
  unfold array setArray
  cases side == sideBuy <;> cases side' == sideBuy <;> rfl

@[simp] theorem array_setArray_self (a : LevelArrays) (side : UInt8) (s : BookSide) :
    (a.setArray side s).array side = s := by
  rw [array_setArray, if_pos rfl]

/-- A ranked array in place of another keeps the arrays ranked. -/
theorem Ranked.setArray {a : LevelArrays} (h : a.Ranked) {side : UInt8} {s : BookSide}
    (hs : s.Ranked (side == sideBuy)) : (a.setArray side s).Ranked := by
  intro side'
  rw [array_setArray]
  split
  · rename_i heq
    rwa [heq]
  · exact h side'

theorem Ranked.call {a : LevelArrays} (h : a.Ranked) (c : LevelCall) : (a.call c).Ranked := by
  cases c with
  | add side price shares => exact h.setArray ((h side).addToLevels price shares)
  | remove side price shares => exact h.setArray ((h side).removeFromLevels price shares)

theorem Ranked.callAll {a : LevelArrays} (h : a.Ranked) (calls : List LevelCall) :
    (a.callAll calls).Ranked := by
  induction calls generalizing a with
  | nil => exact h
  | cons c rest ih => exact ih (h.call c)

end LevelArrays

/-- The shares that an Execute of the given size takes from an order. -/
def LiveOrder.executed (lo : LiveOrder) (shares : UInt32) : UInt32 :=
  if shares > lo.remainingShares then lo.remainingShares else shares

/-- A live record is the slot behind the pointer of `find`. -/
theorem FlatOrderMap.exists_find {m : FlatOrderMap} {ref : UInt64} {lo : LiveOrder}
    (h : m.lookup ref = some lo) : ∃ idx, m.find ref = some idx ∧ m.slots idx = lo :=
  Option.map_eq_some_iff.mp h

namespace OrderBook

def levelArrays (b : OrderBook) : LevelArrays := ⟨b.bids, b.asks⟩

/-- The helper calls that the handler of a message makes, in order. -/
def levelCalls (b : OrderBook) (m : DecodedOrder) : List LevelCall :=
  match m.type with
  | .add => [.add m.side m.price m.shares]
  | .execute =>
    match b.liveOrders.lookup m.orderRef with
    | none => []
    | some lo => [.remove lo.side lo.price (lo.executed m.shares)]
  | .delete =>
    match b.liveOrders.lookup m.orderRef with
    | none => []
    | some lo => [.remove lo.side lo.price lo.remainingShares]
  | .replace =>
    match b.liveOrders.lookup m.orderRef with
    | none => []
    | some lo =>
      [.remove lo.side lo.price lo.remainingShares, .add lo.side m.price m.shares]

variable (b : OrderBook)

theorem levelArrays_addLevel (side : UInt8) (price shares : UInt32) :
    (b.addLevel side price shares).levelArrays = b.levelArrays.call (.add side price shares) := by
  simp only [levelArrays, addLevel, LevelArrays.call, LevelArrays.setArray, LevelArrays.array]
  cases side == sideBuy <;> rfl

theorem levelArrays_removeLevel (side : UInt8) (price shares : UInt32) :
    (b.removeLevel side price shares).levelArrays =
      b.levelArrays.call (.remove side price shares) := by
  simp only [levelArrays, removeLevel, LevelArrays.call, LevelArrays.setArray, LevelArrays.array]
  cases side == sideBuy <;> rfl

/-- An Execute of a live order takes what it can from the order and its level. -/
theorem handleExecute_of_find {m : DecodedOrder} {idx : ℕ}
    (hfind : b.liveOrders.find m.orderRef = some idx) :
    b.handleExecute m =
      let lo := b.liveOrders.slots idx
      let left := lo.remainingShares - lo.executed m.shares
      let b := { b with stats := { b.stats with executes := b.stats.executes + 1 } }
      let b := b.removeLevel lo.side lo.price (lo.executed m.shares)
      let b := { b with liveOrders := b.liveOrders.setRemaining idx left }
      if left == 0 then
        { b with liveOrders := b.liveOrders.erase m.orderRef }.recalculateBbo lo.side lo.price
      else b := by
  simp only [handleExecute, hfind]
  rfl

/-- The level arrays of books with the same sides are the same. -/
theorem levelArrays_congr {b b' : OrderBook} (hbids : b'.bids = b.bids) (hasks : b'.asks = b.asks) :
    b'.levelArrays = b.levelArrays := by
  rw [levelArrays, levelArrays, hbids, hasks]

/-- A message changes the level arrays by its helper calls and in no other way. -/
theorem levelArrays_apply (m : DecodedOrder) :
    (b.apply m).levelArrays = b.levelArrays.callAll (b.levelCalls m) := by
  unfold apply levelCalls
  cases m.type with
  | add =>
    refine Eq.trans (levelArrays_congr ?_ ?_) (b.levelArrays_addLevel m.side m.price m.shares)
    all_goals simp [handleAdd]
  | execute =>
    cases hfind : b.liveOrders.find m.orderRef with
    | none => simp [handleExecute, FlatOrderMap.lookup, hfind, levelArrays, LevelArrays.callAll]
    | some idx =>
      simp only [FlatOrderMap.lookup, hfind, Option.map_some]
      refine Eq.trans (levelArrays_congr ?_ ?_) (b.levelArrays_removeLevel _ _ _)
      all_goals
        simp only [b.handleExecute_of_find hfind]
        split <;> simp
  | delete =>
    cases hfind : b.liveOrders.find m.orderRef with
    | none => simp [handleDelete, FlatOrderMap.lookup, hfind, levelArrays, LevelArrays.callAll]
    | some idx =>
      simp only [FlatOrderMap.lookup, hfind, Option.map_some]
      refine Eq.trans (levelArrays_congr ?_ ?_) (b.levelArrays_removeLevel _ _ _)
      all_goals simp [handleDelete, hfind]
  | replace =>
    cases hfind : b.liveOrders.find m.orderRef with
    | none => simp [handleReplace, FlatOrderMap.lookup, hfind, levelArrays, LevelArrays.callAll]
    | some idx =>
      simp only [FlatOrderMap.lookup, hfind, Option.map_some, LevelArrays.callAll, List.foldl_cons,
        List.foldl_nil, ← levelArrays_removeLevel, ← levelArrays_addLevel]
      refine levelArrays_congr ?_ ?_
      all_goals simp [handleReplace, hfind]

/-- The level arrays of the empty book are ranked. -/
theorem empty_ranked : empty.levelArrays.Ranked := by
  intro side
  unfold LevelArrays.array
  split <;> exact BookSide.ranked_empty _

/-- The level arrays are ranked after any messages. -/
theorem applyAll_ranked (messages : List DecodedOrder) :
    (empty.applyAll messages).levelArrays.Ranked := by
  induction messages using List.reverseRecOn with
  | nil => exact empty_ranked
  | append_singleton messages m ih =>
    rw [applyAll_snoc, levelArrays_apply]
    exact ih.callAll _

end OrderBook

end NanoRing
