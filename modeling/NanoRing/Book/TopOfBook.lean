import NanoRing.Book.LevelCalls

/-!
# The cached best prices

The book caches the first price of each level array. An Add improves the cache
incrementally, an Execute or a Delete reads the array again only when it removes an order at
the cached price, and a Replace always reads both arrays again. `KeepsTop` says of a single
message, in terms of the book before it, that the cache is still right afterwards.
-/

namespace NanoRing

namespace OrderBook

open BookSide (Before)

variable {b b' : OrderBook}

/-- The cached best price of the side that a side byte selects. -/
def bestOf (b : OrderBook) (side : UInt8) : UInt32 :=
  if side == sideBuy then b.bestBid else b.bestAsk

/-- The cached best prices are the first prices of the level arrays. -/
def Topped (b : OrderBook) : Prop := b.bestBid = b.bids.top ∧ b.bestAsk = b.asks.top

/-- The test of `handle_add` for a new best price. -/
def improves (descending : Bool) (price best : UInt32) : Bool :=
  if descending then price > best else best == 0 || price < best

/-- No price, or one that does not come before the given one. -/
def NoBetter (descending : Bool) (price other : UInt32) : Prop :=
  other = 0 ∨ ¬ Before descending other price

/-- Taking shares of an order off its level keeps the cache right: the best level survives, or
the order leaves too and `recalculate_bbo` knows its side, or zero is right either way. -/
def FillKeepsTop (b : OrderBook) (lo : LiveOrder) (shares : UInt32) : Prop :=
  b.bestOf lo.side = lo.price → (b.levelArrays.array lo.side).Covers lo.price shares →
    (shares = lo.remainingShares ∧ (lo.side = sideBuy ∨ lo.side = sideSell)) ∨
      (lo.price = 0 ∧ (b.levelArrays.array lo.side).count = 1)

/-- The message keeps the cached best prices right. -/
def KeepsTop (b : OrderBook) (m : DecodedOrder) : Prop :=
  match m.type with
  | .add =>
    let s := b.levelArrays.array m.side
    (s.Refuses m.price → ¬ Before (m.side == sideBuy) m.price (b.bestOf m.side)) ∧
      (m.side ≠ sideBuy → 0 < s.count → b.bestOf m.side = 0 → m.price = 0)
  | .execute =>
    ∀ lo, b.liveOrders.lookup m.orderRef = some lo → b.FillKeepsTop lo (lo.executed m.shares)
  | .delete =>
    ∀ lo, b.liveOrders.lookup m.orderRef = some lo → b.FillKeepsTop lo lo.remainingShares
  | .replace => True

/-! ## The cache under the helpers -/

theorem topped_iff : b.Topped ↔ ∀ side, b.bestOf side = (b.levelArrays.array side).top := by
  unfold Topped bestOf levelArrays LevelArrays.array
  constructor
  · rintro ⟨hbid, hask⟩ side
    cases side == sideBuy with
    | true => exact hbid
    | false => exact hask
  · intro h
    exact ⟨h sideBuy, h sideSell⟩

theorem bestOf_congr {side side' : UInt8} (h : (side' == sideBuy) = (side == sideBuy)) :
    b.bestOf side' = b.bestOf side := by
  rw [bestOf, bestOf, h]

theorem array_congr (a : LevelArrays) {side side' : UInt8}
    (h : (side' == sideBuy) = (side == sideBuy)) : a.array side' = a.array side := by
  rw [LevelArrays.array, LevelArrays.array, h]

theorem bestOf_addLevel (b : OrderBook) (side side' : UInt8) (price shares : UInt32) :
    (b.addLevel side price shares).bestOf side' = b.bestOf side' := by
  unfold addLevel
  split <;> rfl

theorem bestOf_removeLevel (b : OrderBook) (side side' : UInt8) (price shares : UInt32) :
    (b.removeLevel side price shares).bestOf side' = b.bestOf side' := by
  unfold removeLevel
  split <;> rfl

/-- An Add improves the cached price of its own side only. -/
theorem bestOf_improveBbo (b : OrderBook) (side side' : UInt8) (price : UInt32) :
    (b.improveBbo side price).bestOf side' =
      if (side' == sideBuy) = (side == sideBuy) then
        if improves (side == sideBuy) price (b.bestOf side) then price else b.bestOf side
      else b.bestOf side' := by
  unfold improveBbo improves bestOf bestBid bestAsk countBboChange
  cases side == sideBuy <;> cases side' == sideBuy <;> simp <;> split <;> simp_all

/-- `recalculate_bbo` reads the array of a known side again when the removed price was the
cached one. -/
theorem bestOf_recalculateBbo (b : OrderBook) (side side' : UInt8) (price : UInt32) :
    (b.recalculateBbo side price).bestOf side' =
      if (side' == sideBuy) = (side == sideBuy) ∧ (side = sideBuy ∨ side = sideSell) ∧
        price = b.bestOf side then (b.levelArrays.array side).top
      else b.bestOf side' := by
  have hbid (b : OrderBook) : b.recalculateBestBid.countBboChange.bestOf side' =
      if side' == sideBuy then b.bids.top else b.bestAsk := rfl
  have hask (b : OrderBook) : b.recalculateBestAsk.countBboChange.bestOf side' =
      if side' == sideBuy then b.bestBid else b.asks.top := rfl
  have hsides : sideSell ≠ sideBuy := by decide
  unfold recalculateBbo
  by_cases hbuy : side = sideBuy
  · subst hbuy
    by_cases hprice : price = b.bestBidPrice
    · rw [if_pos (by simp [hprice]), hbid]
      cases hside : side' == sideBuy <;>
        simp [bestOf, bestBid, hprice, hside, LevelArrays.array, levelArrays]
    · rw [if_neg (by simp [hprice]), if_neg (by simp [hsides.symm])]
      simp [bestOf, bestBid, hprice]
  · by_cases hsell : side = sideSell
    · subst hsell
      rw [if_neg (by simp [hsides])]
      by_cases hprice : price = b.bestAskPrice
      · rw [if_pos (by simp [hprice]), hask]
        cases hside : side' == sideBuy <;>
          simp [bestOf, bestAsk, hprice, hside, LevelArrays.array, levelArrays, hsides]
      · rw [if_neg (by simp [hprice])]
        simp [bestOf, bestAsk, hprice, hsides]
    · rw [if_neg (by simp [hbuy]), if_neg (by simp [hsell]), if_neg (by simp [hbuy, hsell])]

/-- The improved price is the new first price of the side, in terms of the old first price:
a refused level must not be an improvement, any other cached price than the first must be
overtaken, and an ask level at price zero is taken for no level. -/
theorem improved_eq_top_iff {s : BookSide} {descending : Bool} (hs : s.Sorted descending)
    (price shares best : UInt32) :
    (if improves descending price best then price else best) =
        (s.addToLevels price shares descending).top ↔
      (s.Refuses price → best = s.top ∧ ¬ Before descending price s.top) ∧
      (¬ s.Refuses price →
        best = s.top ∨ NoBetter descending price best ∧ NoBetter descending price s.top) ∧
      (descending = false → 0 < s.count → s.top = 0 → price = 0) := by
  have hne : s.Refuses price → price ≠ s.top := by
    rintro ⟨hfull, hnot⟩ rfl
    exact hnot (BookSide.top_mem_prices (lt_of_lt_of_le (by decide) hfull))
  have hpos : s.Refuses price → 0 < s.count := fun h => lt_of_lt_of_le (by decide) h.1
  have hzero : s.count = 0 → s.top = 0 := BookSide.top_of_count_eq_zero
  have htop := hs.top_addToLevels price shares
  unfold NoBetter improves
  -- in either order the cases compare numbers
  cases descending
  all_goals
    simp only [Before, if_true, Bool.false_eq_true, if_false, gt_iff_lt, decide_eq_true_eq,
      Bool.or_eq_true, beq_iff_eq, ne_eq, UInt32.lt_iff_toNat_lt, ← UInt32.toNat_inj,
      apply_ite UInt32.toNat, UInt32.toNat_zero, reduceCtorEq, false_imp_iff, and_true] at *
    by_cases hrefuses : s.Refuses price
    all_goals
      simp only [hrefuses, true_imp_iff, false_imp_iff, not_true_eq_false, not_false_eq_true,
        true_and, false_and, and_false, true_or, false_or, and_true, or_false] at *
      split <;> omega

/-! ## One message -/

/-- When a message leaves the other side alone, its own side decides. -/
theorem Topped.iff_of_side (h : b.Topped) (side : UInt8)
    (hother : ∀ side', (side' == sideBuy) ≠ (side == sideBuy) →
      b'.bestOf side' = b.bestOf side' ∧ b'.levelArrays.array side' = b.levelArrays.array side') :
    b'.Topped ↔ b'.bestOf side = (b'.levelArrays.array side).top := by
  rw [topped_iff]
  refine ⟨fun h' => h' side, fun hside side' => ?_⟩
  by_cases hsame : (side' == sideBuy) = (side == sideBuy)
  · rw [bestOf_congr hsame, array_congr _ hsame, hside]
  · obtain ⟨hbest, harray⟩ := hother side' hsame
    rw [hbest, harray]
    exact topped_iff.mp h side'

/-- An addition keeps the cache right exactly under its condition. -/
theorem Topped.add_iff (h : b.Topped) (hr : b.levelArrays.Ranked) {side : UInt8}
    {price shares : UInt32} (harrays : b'.levelArrays = b.levelArrays.call (.add side price shares))
    (hbest : ∀ side', b'.bestOf side' =
      if (side' == sideBuy) = (side == sideBuy) then
        if improves (side == sideBuy) price (b.bestOf side) then price else b.bestOf side
      else b.bestOf side') :
    b'.Topped ↔
      ((b.levelArrays.array side).Refuses price →
        ¬ Before (side == sideBuy) price (b.bestOf side)) ∧
      (side ≠ sideBuy → 0 < (b.levelArrays.array side).count → b.bestOf side = 0 → price = 0) := by
  rw [h.iff_of_side side, hbest, if_pos rfl, harrays, LevelArrays.call,
    LevelArrays.array_setArray_self, topped_iff.mp h side, improved_eq_top_iff (hr side).sorted]
  · simp only [true_and, true_or, implies_true, beq_eq_false_iff_ne]
  · intro side' hne
    rw [hbest, if_neg hne, harrays, LevelArrays.call, LevelArrays.array_setArray, if_neg hne]
    exact ⟨rfl, rfl⟩

/-- A fill keeps the cache right exactly under its condition. -/
theorem Topped.fill_iff (h : b.Topped) (hr : b.levelArrays.Ranked) {lo : LiveOrder}
    {shares : UInt32}
    (harrays : b'.levelArrays = b.levelArrays.call (.remove lo.side lo.price shares))
    (hbest : ∀ side', b'.bestOf side' =
      if (side' == sideBuy) = (lo.side == sideBuy) ∧ (lo.side = sideBuy ∨ lo.side = sideSell) ∧
        lo.price = b.bestOf lo.side ∧ shares = lo.remainingShares then
        (b'.levelArrays.array lo.side).top
      else b.bestOf side') :
    b'.Topped ↔ b.FillKeepsTop lo shares := by
  have hs := (hr lo.side).sorted
  have htop := topped_iff.mp h lo.side
  have harray : b'.levelArrays.array lo.side =
      (b.levelArrays.array lo.side).removeFromLevels lo.price shares (lo.side == sideBuy) := by
    rw [harrays, LevelArrays.call, LevelArrays.array_setArray_self]
  rw [h.iff_of_side lo.side]
  · by_cases hread : (lo.side = sideBuy ∨ lo.side = sideSell) ∧ lo.price = b.bestOf lo.side ∧
        shares = lo.remainingShares
    · rw [hbest, if_pos ⟨rfl, hread⟩]
      exact ⟨fun _ _ _ => Or.inl ⟨hread.2.2, hread.1⟩, fun _ => rfl⟩
    · rw [hbest, if_neg fun h => hread h.2, harray]
      by_cases hlost : b.bestOf lo.side = lo.price ∧
          (b.levelArrays.array lo.side).Covers lo.price shares
      · -- the cache still shows the price of the removed level
        rw [hlost.1, eq_comm, hs.top_removeFromLevels_eq_iff hlost.2]
        refine ⟨fun hzero _ _ => Or.inr hzero, fun hfill => (hfill hlost.1 hlost.2).resolve_left ?_⟩
        exact fun hleft => hread ⟨hleft.2, hlost.1.symm, hleft.1⟩
      · rw [hs.top_removeFromLevels (htop ▸ hlost), htop]
        exact ⟨fun _ h₁ h₂ => absurd ⟨h₁, h₂⟩ hlost, fun _ => rfl⟩
  · intro side' hne
    rw [hbest, if_neg fun h => hne h.1, harrays, LevelArrays.call, LevelArrays.array_setArray,
      if_neg hne]
    exact ⟨rfl, rfl⟩

/-- An Execute leaves nothing exactly when it takes all the remaining shares. -/
theorem sub_executed_eq_zero_iff (lo : LiveOrder) (shares : UInt32) :
    lo.remainingShares - lo.executed shares = 0 ↔ lo.executed shares = lo.remainingShares := by
  rw [UInt32.sub_eq_iff_eq_add, UInt32.zero_add, eq_comm]

/-- `recalculate_bbo` after a fill, which changed no cached price so far. -/
theorem bestOf_recalculateBbo_of_fill {filled : OrderBook}
    (hbest : ∀ side, filled.bestOf side = b.bestOf side) (side side' : UInt8) (price : UInt32) :
    (filled.recalculateBbo side price).bestOf side' =
      if (side' == sideBuy) = (side == sideBuy) ∧ (side = sideBuy ∨ side = sideSell) ∧
        price = b.bestOf side then ((filled.recalculateBbo side price).levelArrays.array side).top
      else b.bestOf side' := by
  rw [bestOf_recalculateBbo, hbest, hbest, levelArrays_congr (recalculateBbo_bids filled side price)
    (recalculateBbo_asks filled side price)]

/-- An Execute that takes all of a live order on a known side reads its array again when it had
the cached price. -/
theorem bestOf_execute {m : DecodedOrder} {lo : LiveOrder} (htype : m.type = .execute)
    (hlookup : b.liveOrders.lookup m.orderRef = some lo) (side : UInt8) :
    (b.apply m).bestOf side =
      if (side == sideBuy) = (lo.side == sideBuy) ∧ (lo.side = sideBuy ∨ lo.side = sideSell) ∧
        lo.price = b.bestOf lo.side ∧ lo.executed m.shares = lo.remainingShares then
        ((b.apply m).levelArrays.array lo.side).top
      else b.bestOf side := by
  obtain ⟨idx, hfind, rfl⟩ := FlatOrderMap.exists_find hlookup
  simp only [apply, htype, b.handleExecute_of_find hfind, beq_iff_eq, sub_executed_eq_zero_iff]
  split
  · rename_i hfull
    simp only [hfull, and_true]
    refine bestOf_recalculateBbo_of_fill (fun side => ?_) _ _ _
    exact bestOf_removeLevel _ _ side _ _
  · rename_i hpart
    rw [if_neg fun h => hpart h.2.2.2]
    exact bestOf_removeLevel _ _ side _ _

/-- A Delete of a live order on a known side reads its array again when it had the cached price. -/
theorem bestOf_delete {m : DecodedOrder} {lo : LiveOrder} (htype : m.type = .delete)
    (hlookup : b.liveOrders.lookup m.orderRef = some lo) (side : UInt8) :
    (b.apply m).bestOf side =
      if (side == sideBuy) = (lo.side == sideBuy) ∧ (lo.side = sideBuy ∨ lo.side = sideSell) ∧
        lo.price = b.bestOf lo.side then ((b.apply m).levelArrays.array lo.side).top
      else b.bestOf side := by
  obtain ⟨idx, hfind, rfl⟩ := FlatOrderMap.exists_find hlookup
  simp only [apply, htype, handleDelete, hfind]
  refine bestOf_recalculateBbo_of_fill (fun side => ?_) _ _ _
  exact bestOf_removeLevel _ _ side _ _

/-- An Add improves the cached price of its own side only. -/
theorem bestOf_add {m : DecodedOrder} (htype : m.type = .add) (side : UInt8) :
    (b.apply m).bestOf side =
      if (side == sideBuy) = (m.side == sideBuy) then
        if improves (m.side == sideBuy) m.price (b.bestOf m.side) then m.price else b.bestOf m.side
      else b.bestOf side := by
  simp only [apply, htype, handleAdd]
  rw [bestOf_improveBbo, bestOf_addLevel, bestOf_addLevel]
  rfl

/-- One message keeps the cached best prices right exactly under its condition. -/
theorem Topped.apply_iff (h : b.Topped) (hr : b.levelArrays.Ranked) (m : DecodedOrder) :
    (b.apply m).Topped ↔ b.KeepsTop m := by
  have harrays := b.levelArrays_apply m
  unfold KeepsTop
  cases htype : m.type with
  | add =>
    simp only [levelCalls, htype] at harrays
    exact h.add_iff hr harrays fun side' => bestOf_add htype side'
  | execute =>
    cases hlookup : b.liveOrders.lookup m.orderRef with
    | none =>
      have hfind := Option.map_eq_none_iff.mp hlookup
      simp only [apply, htype, handleExecute, hfind]
      exact iff_of_true h fun lo hlo => by cases hlo
    | some lo =>
      simp only [levelCalls, htype, hlookup] at harrays
      simp only [Option.some.injEq, forall_eq']
      exact h.fill_iff hr harrays fun side' => bestOf_execute htype hlookup side'
  | delete =>
    cases hlookup : b.liveOrders.lookup m.orderRef with
    | none =>
      have hfind := Option.map_eq_none_iff.mp hlookup
      simp only [apply, htype, handleDelete, hfind]
      exact iff_of_true h fun lo hlo => by cases hlo
    | some lo =>
      simp only [levelCalls, htype, hlookup] at harrays
      simp only [Option.some.injEq, forall_eq']
      refine h.fill_iff hr harrays fun side' => ?_
      simp only [and_true]
      exact bestOf_delete htype hlookup side'
  | replace =>
    simp only [apply, htype, handleReplace]
    cases b.liveOrders.find m.orderRef with
    | none => exact iff_of_true h trivial
    | some idx => exact iff_of_true ⟨rfl, rfl⟩ trivial

/-! ## Runs -/

/-- After every message of a history the cached best prices are the first prices of the level
arrays exactly when every message of it meets its condition where it is applied. -/
theorem best_prices_are_tops_iff (messages : List DecodedOrder) :
    (∀ done, done <+: messages → (empty.applyAll done).Topped) ↔
      ∀ done m, done ++ [m] <+: messages → (empty.applyAll done).KeepsTop m := by
  refine Schedule.forall_prefix_iff ⟨rfl, rfl⟩ fun done m _ hdone => ?_
  rw [applyAll_snoc]
  exact (hdone done List.prefix_rfl).apply_iff (applyAll_ranked done) m

/-- Two sell orders, the first at price zero. -/
def zeroPriceAsks : List DecodedOrder :=
  [⟨.add, 1, 0, 0, 10, sideSell, 0⟩, ⟨.add, 2, 0, 5, 10, sideSell, 0⟩]

/-- The cached price zero is taken for no price, and the worse price replaces it. -/
theorem zeroPriceAsks_not_topped :
    (empty.applyAll zeroPriceAsks).bestAsk = 5 ∧ (empty.applyAll zeroPriceAsks).askDepth = 2 ∧
      ((empty.applyAll zeroPriceAsks).asks.levels 0).price = 0 ∧
      ¬ ∀ done, done <+: zeroPriceAsks → (empty.applyAll done).Topped := by
  have hbest : (empty.applyAll zeroPriceAsks).bestAsk = 5 := by decide +kernel
  have hdepth : (empty.applyAll zeroPriceAsks).askDepth = 2 := by decide +kernel
  have hfirst : ((empty.applyAll zeroPriceAsks).asks.levels 0).price = 0 := by decide +kernel
  refine ⟨hbest, hdepth, hfirst, fun h => ?_⟩
  have hask := (h zeroPriceAsks List.prefix_rfl).2
  have hcount : (empty.applyAll zeroPriceAsks).asks.count > 0 := by
    change (empty.applyAll zeroPriceAsks).askDepth > 0
    rw [hdepth]
    decide
  rw [hbest, BookSide.top, if_pos hcount, hfirst] at hask
  cases hask

end OrderBook

end NanoRing
