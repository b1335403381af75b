import NanoRing.Book.FlatOrderMap
import NanoRing.Book.PriceLevels

/-!
# The single-symbol order book

The live orders, the two level arrays, the cached best prices and the statistics, with one
handler per message kind. A side test that is not `'B'` takes the ask branch, except in
`recalculateBbo`, which also tests for `'S'`.

The statistics are 64-bit counters of messages and are natural numbers here.
-/

namespace NanoRing

/-- Message counters. -/
structure Stats where
  adds : ℕ := 0
  executes : ℕ := 0
  deletes : ℕ := 0
  replaces : ℕ := 0
  bboChanges : ℕ := 0
deriving DecidableEq, Repr

structure OrderBook where
  bids : BookSide := {}
  asks : BookSide := {}
  bestBidPrice : UInt32 := 0
  bestAskPrice : UInt32 := 0
  liveOrders : FlatOrderMap := .empty
  stats : Stats := {}

namespace OrderBook

/-- The freshly built book. -/
def empty : OrderBook := {}

def bestBid (b : OrderBook) : UInt32 := b.bestBidPrice

def bestAsk (b : OrderBook) : UInt32 := b.bestAskPrice

def spread (b : OrderBook) : UInt32 :=
  if b.bestAskPrice == 0 || b.bestBidPrice == 0 then 0 else b.bestAskPrice - b.bestBidPrice

def bidDepth (b : OrderBook) : ℕ := b.bids.count

def askDepth (b : OrderBook) : ℕ := b.asks.count

def recalculateBestBid (b : OrderBook) : OrderBook :=
  { b with bestBidPrice := if b.bids.count > 0 then (b.bids.levels 0).price else 0 }

def recalculateBestAsk (b : OrderBook) : OrderBook :=
  { b with bestAskPrice := if b.asks.count > 0 then (b.asks.levels 0).price else 0 }

/-- `stats_.bbo_changes++`. -/
def countBboChange (b : OrderBook) : OrderBook :=
  { b with stats := { b.stats with bboChanges := b.stats.bboChanges + 1 } }

def recalculateBbo (b : OrderBook) (side : UInt8) (removedPrice : UInt32) : OrderBook :=
  if side == sideBuy && removedPrice == b.bestBidPrice then b.recalculateBestBid.countBboChange
  else if side == sideSell && removedPrice == b.bestAskPrice then
    b.recalculateBestAsk.countBboChange
  else b

def recalculateBboFull (b : OrderBook) : OrderBook :=
  b.recalculateBestBid.recalculateBestAsk.countBboChange

/-- The `add_to_levels` call of a handler, on the array that the side byte selects. -/
def addLevel (b : OrderBook) (side : UInt8) (price shares : UInt32) : OrderBook :=
  if side == sideBuy then { b with bids := b.bids.addToLevels price shares true }
  else { b with asks := b.asks.addToLevels price shares false }

/-- The `remove_from_levels` call of a handler, on the array that the side byte selects. -/
def removeLevel (b : OrderBook) (side : UInt8) (price shares : UInt32) : OrderBook :=
  if side == sideBuy then { b with bids := b.bids.removeFromLevels price shares true }
  else { b with asks := b.asks.removeFromLevels price shares false }

/-- The best-price update of `handle_add`. -/
def improveBbo (b : OrderBook) (side : UInt8) (price : UInt32) : OrderBook :=
  if side == sideBuy then
    if price > b.bestBidPrice then { b with bestBidPrice := price }.countBboChange else b
  else
    if b.bestAskPrice == 0 || price < b.bestAskPrice then
      { b with bestAskPrice := price }.countBboChange
    else b

def handleAdd (b : OrderBook) (order : DecodedOrder) : OrderBook :=
  let b := { b with stats := { b.stats with adds := b.stats.adds + 1 } }
  let lo : LiveOrder := ⟨order.orderRef, order.price, order.shares, order.side, true⟩
  let b := { b with liveOrders := b.liveOrders.insert order.orderRef lo }
  (b.addLevel order.side order.price order.shares).improveBbo order.side order.price

def handleExecute (b : OrderBook) (order : DecodedOrder) : OrderBook :=
  let b := { b with stats := { b.stats with executes := b.stats.executes + 1 } }
  match b.liveOrders.find order.orderRef with
  | none => b
  | some idx =>
    let lo := b.liveOrders.slots idx
    let execShares := if order.shares > lo.remainingShares then lo.remainingShares else order.shares
    let b := b.removeLevel lo.side lo.price execShares
    let remaining := lo.remainingShares - execShares
    let b := { b with liveOrders := b.liveOrders.setRemaining idx remaining }
    if remaining == 0 then
      { b with liveOrders := b.liveOrders.erase order.orderRef }.recalculateBbo lo.side lo.price
    else b

def handleDelete (b : OrderBook) (order : DecodedOrder) : OrderBook :=
  let b := { b with stats := { b.stats with deletes := b.stats.deletes + 1 } }
  match b.liveOrders.find order.orderRef with
  | none => b
  | some idx =>
    let lo := b.liveOrders.slots idx
    let b := b.removeLevel lo.side lo.price lo.remainingShares
    { b with liveOrders := b.liveOrders.erase order.orderRef }.recalculateBbo lo.side lo.price

def handleReplace (b : OrderBook) (order : DecodedOrder) : OrderBook :=
  let b := { b with stats := { b.stats with replaces := b.stats.replaces + 1 } }
  match b.liveOrders.find order.orderRef with
  | none => b
  | some idx =>
    let lo := b.liveOrders.slots idx
    let side := lo.side
    let b := b.removeLevel side lo.price lo.remainingShares
    let b := { b with liveOrders := b.liveOrders.erase order.orderRef }
    let newLo : LiveOrder := ⟨order.newOrderRef, order.price, order.shares, side, true⟩
    let b := { b with liveOrders := b.liveOrders.insert order.newOrderRef newLo }
    (b.addLevel side order.price order.shares).recalculateBboFull

def apply (b : OrderBook) (order : DecodedOrder) : OrderBook :=
  match order.type with
  | .add => b.handleAdd order
  | .execute => b.handleExecute order
  | .delete => b.handleDelete order
  | .replace => b.handleReplace order

/-- The book after a list of messages, in order. -/
def applyAll (b : OrderBook) (orders : List DecodedOrder) : OrderBook := orders.foldl apply b

/-! ## What each helper leaves unchanged -/

section Fields

variable (b : OrderBook) (side : UInt8) (price shares : UInt32)

@[simp] theorem addLevel_bids : (b.addLevel side price shares).bids =
    if side == sideBuy then b.bids.addToLevels price shares true else b.bids := by
  unfold addLevel
  split <;> rfl

@[simp] theorem addLevel_asks : (b.addLevel side price shares).asks =
    if side == sideBuy then b.asks else b.asks.addToLevels price shares false := by
  unfold addLevel
  split <;> rfl

@[simp] theorem addLevel_liveOrders : (b.addLevel side price shares).liveOrders = b.liveOrders := by
  unfold addLevel
  split <;> rfl

@[simp] theorem addLevel_stats : (b.addLevel side price shares).stats = b.stats := by
  unfold addLevel
  split <;> rfl

@[simp] theorem removeLevel_bids : (b.removeLevel side price shares).bids =
    if side == sideBuy then b.bids.removeFromLevels price shares true else b.bids := by
  unfold removeLevel
  split <;> rfl

@[simp] theorem removeLevel_asks : (b.removeLevel side price shares).asks =
    if side == sideBuy then b.asks else b.asks.removeFromLevels price shares false := by
  unfold removeLevel
  split <;> rfl

@[simp] theorem removeLevel_liveOrders :
    (b.removeLevel side price shares).liveOrders = b.liveOrders := by
  unfold removeLevel
  split <;> rfl

@[simp] theorem removeLevel_stats : (b.removeLevel side price shares).stats = b.stats := by
  unfold removeLevel
  split <;> rfl

@[simp] theorem improveBbo_bids : (b.improveBbo side price).bids = b.bids := by
  unfold improveBbo countBboChange
  split <;> split <;> rfl

@[simp] theorem improveBbo_asks : (b.improveBbo side price).asks = b.asks := by
  unfold improveBbo countBboChange
  split <;> split <;> rfl

@[simp] theorem improveBbo_liveOrders : (b.improveBbo side price).liveOrders = b.liveOrders := by
  unfold improveBbo countBboChange
  split <;> split <;> rfl

@[simp] theorem recalculateBbo_bids : (b.recalculateBbo side price).bids = b.bids := by
  unfold recalculateBbo
  split
  · rfl
  · split <;> rfl

@[simp] theorem recalculateBbo_asks : (b.recalculateBbo side price).asks = b.asks := by
  unfold recalculateBbo
  split
  · rfl
  · split <;> rfl

@[simp] theorem recalculateBbo_liveOrders :
    (b.recalculateBbo side price).liveOrders = b.liveOrders := by
  unfold recalculateBbo
  split
  · rfl
  · split <;> rfl

@[simp] theorem recalculateBboFull_bids : b.recalculateBboFull.bids = b.bids := rfl

@[simp] theorem recalculateBboFull_asks : b.recalculateBboFull.asks = b.asks := rfl

@[simp] theorem recalculateBboFull_liveOrders : b.recalculateBboFull.liveOrders = b.liveOrders := rfl

end Fields

theorem applyAll_snoc (b : OrderBook) (orders : List DecodedOrder) (order : DecodedOrder) :
    b.applyAll (orders ++ [order]) = (b.applyAll orders).apply order := by
  simp only [applyAll, List.foldl_append, List.foldl_cons, List.foldl_nil]

end OrderBook

end NanoRing
