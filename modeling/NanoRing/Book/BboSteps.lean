import NanoRing.Book.ReplaceParts

/-!
# What a message does to the cached best prices

The handlers write the cached best prices at five places and count each write. `BboStep` lists
the cases of a message: the test it passes, the prices it writes, in terms of the book before
it, and the count it leaves.
-/

namespace NanoRing

namespace BookSide

variable {s : BookSide} {descending : Bool}

/-- The best price once shares have been removed at one price and others added at `price`, in
terms of the side before: the addition is refused, or first, or behind what the removal left. -/
def topReplaced (s : BookSide) (descending : Bool) (removed shares price : UInt32) : UInt32 :=
  if s.Refuses price ∧ ¬ s.Covers removed shares then s.top
  else if s.count = 0 ∨ s.count = 1 ∧ s.Covers removed shares ∨
      Before descending price (s.topLeft removed shares) then price
  else s.topLeft removed shares

/-- A removal leaves no level when there was none or it covers the only one. -/
theorem Sorted.count_removeFromLevels_eq_zero_iff (hs : s.Sorted descending)
    (removed shares : UInt32) :
    (s.removeFromLevels removed shares descending).count = 0 ↔
      s.count = 0 ∨ s.count = 1 ∧ s.Covers removed shares := by
  obtain ⟨hcovers, hkept⟩ := hs.count_removeFromLevels removed shares
  by_cases h : s.Covers removed shares
  · have hcount := hcovers h
    simp only [h, and_true]
    omega
  · simp only [hkept h, h, and_false, or_false]

/-- The best price after a removal and an addition. -/
theorem Ranked.top_replaced (hs : s.Ranked descending) (removed shares price added : UInt32) :
    ((s.removeFromLevels removed shares descending).addToLevels price added descending).top =
      s.topReplaced descending removed shares price := by
  have hleft := (hs.removeFromLevels removed shares).sorted
  have hrefuses := hs.refuses_removeFromLevels_iff removed shares price
  have hempty := hs.sorted.count_removeFromLevels_eq_zero_iff removed shares
  have htop := hs.sorted.top_removeFromLevels_eq removed shares
  have hleft_top := hleft.top_addToLevels price added
  rw [htop] at hleft_top
  unfold topReplaced
  rcases hleft_top with ⟨hsame, hwhy⟩ | ⟨hnew, haccepted, hfirst⟩
  · rw [hsame]
    split
    · rename_i hrefused
      rw [topLeft, if_neg hrefused.2]
    · rename_i haccepted
      obtain ⟨hpos, hbehind⟩ := hwhy.resolve_left fun hrefused => haccepted (hrefuses.mp hrefused)
      rw [if_neg]
      rw [← or_assoc, ← hempty]
      exact not_or.mpr ⟨by omega, hbehind⟩
  · rw [hnew, if_neg (mt hrefuses.mpr haccepted), if_pos]
    rwa [← or_assoc, ← hempty]

end BookSide

namespace OrderBook

variable {b : OrderBook} {m : DecodedOrder} {lo : LiveOrder}

/-- The message takes all of a live order that has the cached best price of its known side. -/
structure TakesBest (b : OrderBook) (m : DecodedOrder) (lo : LiveOrder) : Prop where
  live : b.liveOrders.lookup m.orderRef = some lo
  whole : m.type = .delete ∨ m.type = .execute ∧ lo.executed m.shares = lo.remainingShares
  known : lo.side = sideBuy ∨ lo.side = sideSell
  best : lo.price = b.bestOf lo.side

/-- Neither an Add nor a Replace counts as taking an order. -/
theorem TakesBest.type_ne (h : b.TakesBest m lo) : m.type ≠ .add ∧ m.type ≠ .replace := by
  rcases h.whole with hdelete | ⟨hexecute, -⟩
  · rw [hdelete]
    decide
  · rw [hexecute]
    decide

/-- The first listed price of a side once a Replace has taken off the live order and listed the
new price. -/
def topReplaced (b : OrderBook) (lo : LiveOrder) (price : UInt32) (side : UInt8) : UInt32 :=
  if (side == sideBuy) = (lo.side == sideBuy) then
    (b.levelArrays.array lo.side).topReplaced (lo.side == sideBuy) lo.price lo.remainingShares price
  else (b.levelArrays.array side).top

/-- The cases of a message for the cached best prices and the count of their changes. -/
inductive BboStep (b : OrderBook) (m : DecodedOrder) : Prop
  | kept (hadd : m.type = .add → improves (m.side == sideBuy) m.price (b.bestOf m.side) = false)
      (htakes : ∀ lo, ¬ b.TakesBest m lo)
      (hreplace : m.type = .replace → b.liveOrders.lookup m.orderRef = none)
      (hbest : ∀ side, (b.apply m).bestOf side = b.bestOf side)
      (hcount : (b.apply m).stats.bboChanges = b.stats.bboChanges)
  | improved (htype : m.type = .add)
      (himproves : improves (m.side == sideBuy) m.price (b.bestOf m.side) = true)
      (hbest : ∀ side, (b.apply m).bestOf side =
        if (side == sideBuy) = (m.side == sideBuy) then m.price else b.bestOf side)
      (hcount : (b.apply m).stats.bboChanges = b.stats.bboChanges + 1)
  | taken (lo : LiveOrder) (htakes : b.TakesBest m lo)
      (hbest : ∀ side, (b.apply m).bestOf side =
        if (side == sideBuy) = (lo.side == sideBuy) then
          (b.levelArrays.array lo.side).topLeft lo.price lo.remainingShares
        else b.bestOf side)
      (hcount : (b.apply m).stats.bboChanges = b.stats.bboChanges + 1)
  | replaced (lo : LiveOrder) (htype : m.type = .replace)
      (hlookup : b.liveOrders.lookup m.orderRef = some lo)
      (hbest : ∀ side, (b.apply m).bestOf side = b.topReplaced lo m.price side)
      (hcount : (b.apply m).stats.bboChanges = b.stats.bboChanges + 1)

/-! ## The count under the helpers -/

/-- An Add counts an improved price. -/
theorem bboChanges_improveBbo (b : OrderBook) (side : UInt8) (price : UInt32) :
    (b.improveBbo side price).stats.bboChanges =
      b.stats.bboChanges + if improves (side == sideBuy) price (b.bestOf side) then 1 else 0 := by
  unfold improveBbo improves bestOf bestBid bestAsk countBboChange
  cases side == sideBuy <;> simp only [Bool.false_eq_true, if_false, if_true, decide_eq_true_eq] <;>
    split <;> rfl

/-- `recalculate_bbo` counts when it reads the array of a known side again. -/
theorem bboChanges_recalculateBbo (b : OrderBook) (side : UInt8) (price : UInt32) :
    (b.recalculateBbo side price).stats.bboChanges =
      b.stats.bboChanges +
        if (side = sideBuy ∨ side = sideSell) ∧ price = b.bestOf side then 1 else 0 := by
  have hsides : sideSell ≠ sideBuy := by decide
  have hcount (b : OrderBook) : b.countBboChange.stats.bboChanges = b.stats.bboChanges + 1 := rfl
  unfold recalculateBbo
  by_cases hbuy : side = sideBuy
  · subst hbuy
    by_cases hprice : price = b.bestBidPrice <;> simp [hprice, bestOf, bestBid, hsides.symm, hcount,
      recalculateBestBid]
  · by_cases hsell : side = sideSell
    · subst hsell
      by_cases hprice : price = b.bestAskPrice <;> simp [hprice, bestOf, bestAsk, hsides, hcount,
        recalculateBestAsk]
    · simp [hbuy, hsell]

/-- `recalculate_bbo` after a fill, which changed neither a cached price nor the count so far. -/
theorem bboChanges_recalculateBbo_of_fill {filled : OrderBook}
    (hbest : ∀ side, filled.bestOf side = b.bestOf side)
    (hcount : filled.stats.bboChanges = b.stats.bboChanges) (side : UInt8) (price : UInt32) :
    (filled.recalculateBbo side price).stats.bboChanges =
      b.stats.bboChanges +
        if (side = sideBuy ∨ side = sideSell) ∧ price = b.bestOf side then 1 else 0 := by
  rw [bboChanges_recalculateBbo, hbest, hcount]

/-! ## The count after a message -/

theorem bboChanges_add (htype : m.type = .add) :
    (b.apply m).stats.bboChanges =
      b.stats.bboChanges +
        if improves (m.side == sideBuy) m.price (b.bestOf m.side) then 1 else 0 := by
  simp only [apply, htype, handleAdd]
  rw [bboChanges_improveBbo, addLevel_stats, bestOf_addLevel]
  rfl

theorem bboChanges_execute (htype : m.type = .execute)
    (hlookup : b.liveOrders.lookup m.orderRef = some lo) :
    (b.apply m).stats.bboChanges =
      b.stats.bboChanges +
        if (lo.side = sideBuy ∨ lo.side = sideSell) ∧ lo.price = b.bestOf lo.side ∧
          lo.executed m.shares = lo.remainingShares then 1 else 0 := by
  obtain ⟨idx, hfind, rfl⟩ := FlatOrderMap.exists_find hlookup
  simp only [apply, htype, b.handleExecute_of_find hfind, beq_iff_eq, sub_executed_eq_zero_iff]
  split
  · rename_i hwhole
    simp only [hwhole, and_true]
    refine bboChanges_recalculateBbo_of_fill (fun side => ?_) ?_ _ _
    · exact bestOf_removeLevel _ _ side _ _
    · simp only [removeLevel_stats]
  · rename_i hpart
    rw [if_neg fun h => hpart h.2.2]
    simp only [removeLevel_stats, Nat.add_zero]

theorem bboChanges_delete (htype : m.type = .delete)
    (hlookup : b.liveOrders.lookup m.orderRef = some lo) :
    (b.apply m).stats.bboChanges =
      b.stats.bboChanges +
        if (lo.side = sideBuy ∨ lo.side = sideSell) ∧ lo.price = b.bestOf lo.side then 1 else 0 := by
  obtain ⟨idx, hfind, rfl⟩ := FlatOrderMap.exists_find hlookup
  simp only [apply, htype, handleDelete, hfind]
  refine bboChanges_recalculateBbo_of_fill (fun side => ?_) ?_ _ _
  · exact bestOf_removeLevel _ _ side _ _
  · simp only [removeLevel_stats]

theorem bboChanges_replace (htype : m.type = .replace)
    (hlookup : b.liveOrders.lookup m.orderRef = some lo) :
    (b.apply m).stats.bboChanges = b.stats.bboChanges + 1 := by
  obtain ⟨idx, hfind, rfl⟩ := FlatOrderMap.exists_find hlookup
  simp only [apply, htype, handleReplace, hfind]
  change (addLevel _ _ _ _).stats.bboChanges + 1 = _
  simp only [addLevel_stats, removeLevel_stats]

/-! ## The cases -/

/-- A message on a reference that is not found writes nothing. -/
theorem bboStep_of_absent (htype : m.type ≠ .add)
    (habsent : b.liveOrders.lookup m.orderRef = none) : BboStep b m := by
  have hfind := Option.map_eq_none_iff.mp habsent
  refine .kept (fun hadd => absurd hadd htype) (fun lo htakes => ?_) (fun _ => habsent) ?_ ?_
  · have hlive := htakes.live
    rw [habsent] at hlive
    contradiction
  all_goals
    unfold apply
    cases hm : m.type with
    | add => exact absurd hm htype
    | execute => simp [handleExecute, hfind, bestOf, bestBid, bestAsk]
    | delete => simp [handleDelete, hfind, bestOf, bestBid, bestAsk]
    | replace => simp [handleReplace, hfind, bestOf, bestBid, bestAsk]

/-- An Execute or a Delete of a live order reads one array again when it takes all of an order at
the cached price. -/
theorem bboStep_of_live (hr : b.levelArrays.Ranked) (hadd : m.type ≠ .add)
    (hreplace : m.type ≠ .replace) (hlookup : b.liveOrders.lookup m.orderRef = some lo)
    {whole : Prop} [Decidable whole]
    (hwhole : whole ↔ m.type = .delete ∨ m.type = .execute ∧ lo.executed m.shares = lo.remainingShares)
    {taken : UInt32} (htaken : whole → taken = lo.remainingShares)
    (harray : (b.apply m).levelArrays.array lo.side =
      (b.levelArrays.array lo.side).removeFromLevels lo.price taken (lo.side == sideBuy))
    (hbest : ∀ side, (b.apply m).bestOf side =
      if (side == sideBuy) = (lo.side == sideBuy) ∧ (lo.side = sideBuy ∨ lo.side = sideSell) ∧
        lo.price = b.bestOf lo.side ∧ whole then ((b.apply m).levelArrays.array lo.side).top
      else b.bestOf side)
    (hcount : (b.apply m).stats.bboChanges = b.stats.bboChanges +
      if (lo.side = sideBuy ∨ lo.side = sideSell) ∧ lo.price = b.bestOf lo.side ∧ whole then 1
      else 0) : BboStep b m := by
  by_cases h : (lo.side = sideBuy ∨ lo.side = sideSell) ∧ lo.price = b.bestOf lo.side ∧ whole
  · obtain ⟨hknown, hprice, hall⟩ := h
    refine .taken lo ⟨hlookup, hwhole.mp hall, hknown, hprice⟩ (fun side => ?_) ?_
    · rw [hbest, harray, htaken hall, (hr lo.side).sorted.top_removeFromLevels_eq]
      exact if_congr (and_iff_left ⟨hknown, hprice, hall⟩) rfl rfl
    · rw [hcount, if_pos ⟨hknown, hprice, hall⟩]
  · refine .kept (fun h => absurd h hadd) (fun lo' htakes => h ?_) (fun h => absurd h hreplace)
      (fun side => ?_) ?_
    · obtain rfl := Option.some.inj (htakes.live.symm.trans hlookup)
      exact ⟨htakes.known, htakes.best, hwhole.mpr htakes.whole⟩
    · rw [hbest, if_neg fun h' => h h'.2]
    · rw [hcount, if_neg h, Nat.add_zero]

/-- Every message is one of the cases. -/
theorem bboStep (hr : b.levelArrays.Ranked) (m : DecodedOrder) : BboStep b m := by
  have harrays := b.levelArrays_apply m
  cases htype : m.type with
  | add =>
    have hcount := bboChanges_add (b := b) htype
    have hbest := bestOf_add (b := b) htype
    cases himproves : improves (m.side == sideBuy) m.price (b.bestOf m.side) with
    | true =>
      simp only [himproves, if_true] at hcount hbest
      exact .improved htype himproves hbest hcount
    | false =>
      simp only [himproves, Bool.false_eq_true, if_false] at hcount hbest
      refine .kept (fun _ => himproves) (fun lo htakes => ?_) (fun h => ?_) (fun side => ?_) hcount
      · exact htakes.type_ne.1 htype
      · rw [htype] at h
        contradiction
      · rw [hbest]
        split
        · rename_i hsame
          exact (bestOf_congr hsame).symm
        · rfl
  | execute =>
    cases hlookup : b.liveOrders.lookup m.orderRef with
    | none => exact bboStep_of_absent (by simp [htype]) hlookup
    | some lo =>
      simp only [levelCalls, htype, hlookup] at harrays
      refine bboStep_of_live hr (by simp [htype]) (by simp [htype]) hlookup (by simp [htype]) id ?_
        (bestOf_execute htype hlookup) (bboChanges_execute htype hlookup)
      rw [harrays]
      exact LevelArrays.array_setArray_self _ _ _
  | delete =>
    cases hlookup : b.liveOrders.lookup m.orderRef with
    | none => exact bboStep_of_absent (by simp [htype]) hlookup
    | some lo =>
      simp only [levelCalls, htype, hlookup] at harrays
      refine bboStep_of_live hr (by simp [htype]) (by simp [htype]) hlookup
        (iff_of_true trivial (Or.inl htype)) (fun _ => rfl) ?_ ?_ ?_
      · rw [harrays]
        exact LevelArrays.array_setArray_self _ _ _
      · simpa only [and_true] using bestOf_delete htype hlookup
      · simpa only [and_true] using bboChanges_delete htype hlookup
  | replace =>
    cases hlookup : b.liveOrders.lookup m.orderRef with
    | none => exact bboStep_of_absent (by simp [htype]) hlookup
    | some lo =>
      refine .replaced lo htype hlookup (fun side => ?_) (bboChanges_replace htype hlookup)
      rw [bestOf_replace htype hlookup, array_replace htype hlookup, topReplaced]
      split
      · exact (hr lo.side).top_replaced _ _ _ _
      · rfl

end OrderBook

end NanoRing
