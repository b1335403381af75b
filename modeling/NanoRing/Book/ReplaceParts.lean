import NanoRing.Book.LiveOrders
import NanoRing.Book.TopOfBook

/-!
# A Replace and its parts

A Replace makes the same calls on the map and on the level arrays as a Delete of the old order
and an Add of the new one. It differs in the cached best prices: it reads both arrays again,
and the parts refresh the cache only where they see a reason. So they agree where the cache was
right and the Add does not set a price that is not the first one listed.
-/

namespace NanoRing

namespace OrderBook

open BookSide (Before)

variable {b : OrderBook} {m : DecodedOrder} {lo : LiveOrder}

/-- The Delete of the order that a Replace names. -/
def deletePart (m : DecodedOrder) : DecodedOrder := { m with type := .delete }

/-- The Add of the order that a Replace brings, on the side of the old one. -/
def addPart (m : DecodedOrder) (side : UInt8) : DecodedOrder :=
  { m with type := .add, orderRef := m.newOrderRef, side := side }

/-- The book after the two parts. -/
def applyParts (b : OrderBook) (m : DecodedOrder) (side : UInt8) : OrderBook :=
  (b.apply (deletePart m)).apply (addPart m side)

/-- The two books have the same levels, best prices and live orders. -/
structure SameView (b b' : OrderBook) : Prop where
  bids : b.bids = b'.bids
  asks : b.asks = b'.asks
  bestBid : b.bestBid = b'.bestBid
  bestAsk : b.bestAsk = b'.bestAsk
  live : ∀ ref, b.liveOrders.lookup ref = b'.liveOrders.lookup ref

/-- The cache of the other side is right; on the side of the order the Delete makes it right, or
it was, or neither the cached nor the first price is better than the new one; a refused price
is no better than the first one; and no ask at price zero stays. -/
structure PartsAgree (b : OrderBook) (lo : LiveOrder) (price : UInt32) : Prop where
  other : ∀ side, (side == sideBuy) ≠ (lo.side == sideBuy) →
    b.bestOf side = (b.levelArrays.array side).top
  refused : (b.levelArrays.array lo.side).Refuses price →
    ¬ (b.levelArrays.array lo.side).Covers lo.price lo.remainingShares →
      (lo.price = b.bestOf lo.side ∨ b.bestOf lo.side = (b.levelArrays.array lo.side).top) ∧
        ¬ Before (lo.side == sideBuy) price (b.levelArrays.array lo.side).top
  entered : ¬ (b.levelArrays.array lo.side).Refuses price ∨
      (b.levelArrays.array lo.side).Covers lo.price lo.remainingShares →
    lo.price = b.bestOf lo.side ∨
      b.bestOf lo.side = (b.levelArrays.array lo.side).topLeft lo.price lo.remainingShares ∨
      NoBetter (lo.side == sideBuy) price (b.bestOf lo.side) ∧
        NoBetter (lo.side == sideBuy) price
          ((b.levelArrays.array lo.side).topLeft lo.price lo.remainingShares)
  zero : lo.side ≠ sideBuy → 0 ∈ (b.levelArrays.array lo.side).prices →
    lo.price = 0 ∧ (b.levelArrays.array lo.side).Covers lo.price lo.remainingShares

/-! ## What is always the same -/

/-- The Delete takes the order off its level. -/
theorem levelCalls_deletePart (hlookup : b.liveOrders.lookup m.orderRef = some lo) :
    b.levelCalls (deletePart m) = [.remove lo.side lo.price lo.remainingShares] := by
  simp only [levelCalls, deletePart, hlookup]

/-- A Replace takes the old order off its level and adds the new one on the same side. -/
theorem levelCalls_replace (htype : m.type = .replace)
    (hlookup : b.liveOrders.lookup m.orderRef = some lo) :
    b.levelCalls m =
      [.remove lo.side lo.price lo.remainingShares, .add lo.side m.price m.shares] := by
  simp only [levelCalls, htype, hlookup]

/-- A Replace of a live order and its parts make the same calls on the level arrays. -/
theorem levelArrays_applyParts (htype : m.type = .replace)
    (hlookup : b.liveOrders.lookup m.orderRef = some lo) :
    (b.applyParts m lo.side).levelArrays = (b.apply m).levelArrays := by
  rw [applyParts, levelArrays_apply, levelArrays_apply b, levelArrays_apply b,
    levelCalls_deletePart hlookup, levelCalls_replace htype hlookup]
  rfl

/-- A Replace of a live order and its parts make the same calls on the map. -/
theorem liveOrders_applyParts (htype : m.type = .replace)
    (hlookup : b.liveOrders.lookup m.orderRef = some lo) :
    (b.applyParts m lo.side).liveOrders = (b.apply m).liveOrders := by
  obtain ⟨idx, hfind, rfl⟩ := FlatOrderMap.exists_find hlookup
  have hdelete : (b.apply (deletePart m)).liveOrders = b.liveOrders.erase m.orderRef :=
    handleDelete_liveOrders (m := deletePart m) hfind
  have hreplace : (b.apply m).liveOrders = (b.liveOrders.erase m.orderRef).insert m.newOrderRef
      ⟨m.newOrderRef, m.price, m.shares, (b.liveOrders.slots idx).side, true⟩ := by
    rw [apply, htype]
    exact handleReplace_liveOrders hfind
  rw [hreplace, ← hdelete]
  exact handleAdd_liveOrders (b.apply (deletePart m)) (addPart m (b.liveOrders.slots idx).side)

/-! ## The best prices -/

theorem bestOf_recalculateBboFull (b : OrderBook) (side : UInt8) :
    b.recalculateBboFull.bestOf side = (b.levelArrays.array side).top := by
  unfold bestOf LevelArrays.array
  cases side == sideBuy <;> rfl

/-- After a Replace of a live order the cached prices are the first ones. -/
theorem bestOf_replace (htype : m.type = .replace)
    (hlookup : b.liveOrders.lookup m.orderRef = some lo) (side : UInt8) :
    (b.apply m).bestOf side = ((b.apply m).levelArrays.array side).top := by
  obtain ⟨idx, hfind, rfl⟩ := FlatOrderMap.exists_find hlookup
  simp only [apply, htype, handleReplace, hfind]
  exact bestOf_recalculateBboFull _ side

/-- After the parts the cached price of the order's side is the one that the Delete left or the
new one. -/
theorem bestOf_applyParts (hlookup : b.liveOrders.lookup m.orderRef = some lo)
    (hside : lo.side = sideBuy ∨ lo.side = sideSell) (side : UInt8) :
    let left := (b.levelArrays.array lo.side).removeFromLevels lo.price lo.remainingShares
      (lo.side == sideBuy)
    let best := if lo.price = b.bestOf lo.side then left.top else b.bestOf lo.side
    (b.applyParts m lo.side).bestOf side =
      if (side == sideBuy) = (lo.side == sideBuy) then
        if improves (lo.side == sideBuy) m.price best then m.price else best
      else b.bestOf side := by
  have harray : (b.apply (deletePart m)).levelArrays.array lo.side =
      (b.levelArrays.array lo.side).removeFromLevels lo.price lo.remainingShares
        (lo.side == sideBuy) := by
    rw [levelArrays_apply, levelCalls_deletePart hlookup]
    exact LevelArrays.array_setArray_self _ _ _
  have hdelete := bestOf_delete (m := deletePart m) rfl hlookup
  simp only [harray, hside, true_and] at hdelete
  have hown := hdelete lo.side
  simp only [true_and] at hown
  have hadd : (b.applyParts m lo.side).bestOf side =
      if (side == sideBuy) = (lo.side == sideBuy) then
        if improves (lo.side == sideBuy) m.price ((b.apply (deletePart m)).bestOf lo.side) then
          m.price
        else (b.apply (deletePart m)).bestOf lo.side
      else (b.apply (deletePart m)).bestOf side := bestOf_add (m := addPart m lo.side) rfl side
  rw [hown] at hadd
  refine hadd.trans (ite_congr rfl (fun _ => rfl) fun hne => ?_)
  rw [hdelete, if_neg fun h => hne h.1]

/-! ## When the parts agree -/

/-- The last demand of the best price, with a price that is not zero: no ask at price zero stays. -/
theorem no_zero_left_iff {s : BookSide} {descending : Bool} (hs : s.Ranked descending)
    {price removed shares : UInt32} (hprice : 1 ≤ price) :
    (descending = false → 0 < (s.removeFromLevels removed shares descending).count →
        (s.removeFromLevels removed shares descending).top = 0 → price = 0) ↔
      (descending = false → 0 ∈ s.prices → removed = 0 ∧ s.Covers removed shares) := by
  have hne : price ≠ 0 := by
    rintro rfl
    exact absurd hprice (by decide)
  have hleft := hs.removeFromLevels removed shares
  have hmem := hs.sorted.mem_prices_removeFromLevels removed shares 0
  refine forall_congr' fun hasks => ?_
  subst hasks
  constructor
  · intro hempty hzero
    by_contra hstays
    have hlisted := hmem.mpr ⟨hzero, fun h => hstays ⟨h.1.symm, h.2⟩⟩
    refine hne (hempty (BookSide.count_pos_of_mem_prices hlisted) ?_)
    have hfirst : ¬ 0 < (s.removeFromLevels removed shares false).top :=
      hleft.sorted.not_before_top hlisted
    exact UInt32.toNat_inj.mp (Nat.le_zero.mp (UInt32.le_iff_toNat_le.mp (UInt32.not_lt.mp hfirst)))
  · intro hgone hpos hzero
    have hlisted := BookSide.top_mem_prices hpos
    rw [hzero] at hlisted
    obtain ⟨hbefore, hstays⟩ := hmem.mp hlisted
    obtain ⟨hremoved, hcovers⟩ := hgone hbefore
    exact absurd ⟨hremoved.symm, hcovers⟩ hstays

/-- On the order's own side the parts leave the first price exactly under the condition. -/
theorem improved_parts_iff {s : BookSide} {descending : Bool} (hs : s.Ranked descending)
    (removed shares added best : UInt32) {price : UInt32} (hprice : 1 ≤ price) :
    let left := s.removeFromLevels removed shares descending
    let kept := if removed = best then left.top else best
    (left.addToLevels price added descending).top =
        (if improves descending price kept then price else kept) ↔
      (s.Refuses price → ¬ s.Covers removed shares →
        (removed = best ∨ best = s.top) ∧ ¬ Before descending price s.top) ∧
      (¬ s.Refuses price ∨ s.Covers removed shares →
        removed = best ∨ best = s.topLeft removed shares ∨
          NoBetter descending price best ∧ NoBetter descending price (s.topLeft removed shares)) ∧
      (descending = false → 0 ∈ s.prices → removed = 0 ∧ s.Covers removed shares) := by
  have htop := hs.sorted.top_removeFromLevels_eq removed shares
  have hkept : (if removed = best then s.topLeft removed shares else best) =
      s.topLeft removed shares ↔ removed = best ∨ best = s.topLeft removed shares := by
    split
    · rename_i heq
      exact iff_of_true rfl (Or.inl heq)
    · rename_i hne
      exact (or_iff_right hne).symm
  dsimp only
  rw [eq_comm, improved_eq_top_iff (hs.removeFromLevels removed shares).sorted,
    hs.refuses_removeFromLevels_iff, no_zero_left_iff hs hprice, htop, hkept]
  refine and_congr ?_ (and_congr ?_ Iff.rfl)
  · rw [and_imp]
    refine forall_congr' fun _ => forall_congr' fun hcovers => ?_
    rw [BookSide.topLeft, if_neg hcovers]
  · rw [not_and_or, not_not, or_assoc]
    refine forall_congr' fun _ => ?_
    split
    · rename_i heq
      exact iff_of_true (Or.inl heq) (Or.inl heq)
    · rfl

theorem array_replace (htype : m.type = .replace)
    (hlookup : b.liveOrders.lookup m.orderRef = some lo) (side : UInt8) :
    (b.apply m).levelArrays.array side =
      if (side == sideBuy) = (lo.side == sideBuy) then
        ((b.levelArrays.array lo.side).removeFromLevels lo.price lo.remainingShares
          (lo.side == sideBuy)).addToLevels m.price m.shares (lo.side == sideBuy)
      else b.levelArrays.array side := by
  rw [levelArrays_apply, levelCalls_replace htype hlookup]
  simp only [LevelArrays.callAll, List.foldl_cons, List.foldl_nil, LevelArrays.call,
    LevelArrays.array_setArray]
  split <;> rfl

/-- A Replace of a live order leaves what its parts leave exactly under the condition on the
best prices. -/
theorem sameView_iff (hr : b.levelArrays.Ranked) (htype : m.type = .replace)
    (hlookup : b.liveOrders.lookup m.orderRef = some lo)
    (hside : lo.side = sideBuy ∨ lo.side = sideSell) (hprice : 1 ≤ m.price) :
    (b.apply m).SameView (b.applyParts m lo.side) ↔ b.PartsAgree lo m.price := by
  have harrays := levelArrays_applyParts htype hlookup
  have hlive := liveOrders_applyParts htype hlookup
  have hview : (b.apply m).SameView (b.applyParts m lo.side) ↔
      ∀ side, (b.apply m).bestOf side = (b.applyParts m lo.side).bestOf side := by
    constructor
    · intro h side
      rw [bestOf, bestOf, h.bestBid, h.bestAsk]
    · intro h
      refine ⟨?_, ?_, h sideBuy, h sideSell, fun ref => by rw [hlive]⟩
      · exact (congrArg LevelArrays.bids harrays).symm
      · exact (congrArg LevelArrays.asks harrays).symm
  have hown := improved_parts_iff (hr lo.side) lo.price lo.remainingShares m.shares
    (b.bestOf lo.side) hprice
  rw [hview]
  simp only [bestOf_replace htype hlookup, bestOf_applyParts hlookup hside,
    array_replace htype hlookup]
  constructor
  · intro h
    have hself := h lo.side
    rw [if_pos rfl, if_pos rfl] at hself
    obtain ⟨hrefused, hentered, hzero⟩ := hown.mp hself
    refine ⟨fun side hne => ?_, hrefused, hentered, fun hask => hzero (beq_eq_false_iff_ne.mpr hask)⟩
    have hother := h side
    rw [if_neg hne, if_neg hne] at hother
    exact hother.symm
  · intro h side
    by_cases hsame : (side == sideBuy) = (lo.side == sideBuy)
    · rw [if_pos hsame, if_pos hsame]
      exact hown.mpr ⟨h.refused, h.entered, fun hask => h.zero (beq_eq_false_iff_ne.mp hask)⟩
    · rw [if_neg hsame, if_neg hsame]
      exact (h.other side hsame).symm

/-- In every reachable book, a Replace of a live order leaves the same levels, best prices and
live orders as a Delete and an Add exactly under that condition. -/
theorem replace_eq_parts_iff (messages : List DecodedOrder) {m : DecodedOrder} {lo : LiveOrder}
    (htype : m.type = .replace)
    (hlookup : (empty.applyAll messages).liveOrders.lookup m.orderRef = some lo)
    (hside : lo.side = sideBuy ∨ lo.side = sideSell) (hprice : 1 ≤ m.price) :
    ((empty.applyAll messages).apply m).SameView
        ((empty.applyAll messages).applyParts m lo.side) ↔
      (empty.applyAll messages).PartsAgree lo m.price :=
  sameView_iff (applyAll_ranked messages) htype hlookup hside hprice

/-- The only bid is replaced by a better one. -/
theorem only_bid_replaced :
    SameView ((empty.applyAll [⟨.add, 1, 0, 100, 10, sideBuy, 0⟩]).apply
        ⟨.replace, 1, 0, 101, 5, 0, 2⟩)
      ((empty.applyAll [⟨.add, 1, 0, 100, 10, sideBuy, 0⟩]).applyParts
        ⟨.replace, 1, 0, 101, 5, 0, 2⟩ sideBuy) := by
  have hlookup : (empty.applyAll [⟨.add, 1, 0, 100, 10, sideBuy, 0⟩]).liveOrders.lookup 1 =
      some ⟨1, 100, 10, sideBuy, true⟩ := by decide +kernel
  have htopped : (empty.applyAll [⟨.add, 1, 0, 100, 10, sideBuy, 0⟩]).Topped :=
    ⟨by decide +kernel, by decide +kernel⟩
  have hroom : (empty.applyAll [⟨.add, 1, 0, 100, 10, sideBuy, 0⟩]).bids.count = 1 := by
    decide +kernel
  refine (replace_eq_parts_iff _ (m := ⟨.replace, 1, 0, 101, 5, 0, 2⟩) rfl hlookup (Or.inl rfl)
    (by decide)).mpr ⟨?_, ?_, ?_, ?_⟩
  · exact fun side _ => topped_iff.mp htopped side
  · exact fun hfull => absurd (hroom ▸ hfull.1) (by decide)
  · exact fun _ => Or.inl (by decide +kernel)
  · exact fun hask => absurd rfl hask

/-- The ask at five is replaced by one at seven while an ask at price zero rests. -/
theorem zeroPriceAsks_replace_differs :
    (empty.applyAll zeroPriceAsks).liveOrders.lookup 2 = some ⟨2, 5, 10, sideSell, true⟩ ∧
      (empty.applyAll zeroPriceAsks).liveOrders.lookup 3 = none ∧
      ((empty.applyAll zeroPriceAsks).apply ⟨.replace, 2, 0, 7, 10, 0, 3⟩).bestAsk = 0 ∧
      ((empty.applyAll zeroPriceAsks).applyParts ⟨.replace, 2, 0, 7, 10, 0, 3⟩ sideSell).bestAsk =
        7 ∧
      ¬ SameView ((empty.applyAll zeroPriceAsks).apply ⟨.replace, 2, 0, 7, 10, 0, 3⟩)
        ((empty.applyAll zeroPriceAsks).applyParts ⟨.replace, 2, 0, 7, 10, 0, 3⟩ sideSell) := by
  have hwhole : ((empty.applyAll zeroPriceAsks).apply ⟨.replace, 2, 0, 7, 10, 0, 3⟩).bestAsk = 0 := by
    decide +kernel
  have hparts : ((empty.applyAll zeroPriceAsks).applyParts ⟨.replace, 2, 0, 7, 10, 0, 3⟩
      sideSell).bestAsk = 7 := by decide +kernel
  refine ⟨by decide +kernel, by decide +kernel, hwhole, hparts, fun h => ?_⟩
  have hsame := h.bestAsk
  rw [hwhole, hparts] at hsame
  exact absurd hsame (by decide)

end OrderBook

end NanoRing
