import NanoRing.Book.BboSteps

/-!
# The spread

`spread` subtracts the cached best prices, and nothing in the handlers keeps them apart: an order
may enter at any price, and it is not matched against the other side. So the subtraction is the
difference of the prices exactly in the histories in which no message writes a price that
crosses the best price of the other side. Zero stands for no price on either side.
-/

namespace NanoRing

namespace OrderBook

variable {b b' : OrderBook} {m : DecodedOrder}

/-- Asks are absent or not below the bid; an absent bid is below every ask. -/
def Uncrossed (bid ask : UInt32) : Prop := ask = 0 ∨ bid ≤ ask

/-- The spread of a book with both best prices is their difference. -/
def SpreadExact (b : OrderBook) : Prop :=
  b.bestBid ≠ 0 → b.bestAsk ≠ 0 →
    b.bestBid ≤ b.bestAsk ∧ (b.spread.toNat : ℤ) = b.bestAsk.toNat - b.bestBid.toNat

/-- The price on one side does not cross the best price of the other. -/
def FitsOpposite (b : OrderBook) (side : UInt8) (price : UInt32) : Prop :=
  if side == sideBuy then Uncrossed price b.bestAsk else Uncrossed b.bestBid price

/-- No price that the message writes crosses the other side: the price of an added order, the
price left when the best one is taken, and the two prices that a Replace reads. -/
structure WritesUncrossed (b : OrderBook) (m : DecodedOrder) : Prop where
  add : m.type = .add → b.FitsOpposite m.side m.price
  taken : ∀ lo, b.TakesBest m lo →
    b.FitsOpposite lo.side ((b.levelArrays.array lo.side).topLeft lo.price lo.remainingShares)
  replaced : m.type = .replace → ∀ lo, b.liveOrders.lookup m.orderRef = some lo →
    Uncrossed (b.topReplaced lo m.price sideBuy) (b.topReplaced lo m.price sideSell)

/-- The subtraction does not wrap exactly when the best prices are not crossed. -/
theorem spreadExact_iff (b : OrderBook) : b.SpreadExact ↔ Uncrossed b.bestBid b.bestAsk := by
  unfold SpreadExact Uncrossed
  constructor
  · intro h
    by_cases hask : b.bestAsk = 0
    · exact Or.inl hask
    · by_cases hbid : b.bestBid = 0
      · rw [hbid]
        exact Or.inr (UInt32.le_iff_toNat_le.mpr (Nat.zero_le _))
      · exact Or.inr (h hbid hask).1
  · intro h hbid hask
    have hle := h.resolve_left hask
    have hspread : b.spread = b.bestAsk - b.bestBid := by
      unfold spread bestAsk bestBid at *
      simp [hbid, hask]
    rw [hspread, UInt32.toNat_sub_of_le _ _ hle]
    exact ⟨hle, Int.ofNat_sub (UInt32.le_iff_toNat_le.mp hle)⟩

/-- A price written for one side leaves the book uncrossed exactly when it fits the other side. -/
theorem uncrossed_iff_of_side {side : UInt8} {price : UInt32}
    (hbest : ∀ side', b'.bestOf side' =
      if (side' == sideBuy) = (side == sideBuy) then price else b.bestOf side') :
    Uncrossed b'.bestBid b'.bestAsk ↔ b.FitsOpposite side price := by
  have hbid : b'.bestBid = _ := hbest sideBuy
  have hask : b'.bestAsk = _ := hbest sideSell
  rw [hbid, hask, FitsOpposite]
  cases hside : side == sideBuy <;> simp [bestOf, sideBuy, sideSell]

/-- A price that does not improve on the cached one fits the other side when that one does. -/
theorem fitsOpposite_of_not_improves (h : Uncrossed b.bestBid b.bestAsk) {side : UInt8}
    {price : UInt32} (hnot : improves (side == sideBuy) price (b.bestOf side) = false) :
    b.FitsOpposite side price := by
  unfold FitsOpposite
  unfold improves bestOf at hnot
  unfold Uncrossed at *
  cases hside : side == sideBuy
  · simp only [hside, Bool.false_eq_true, if_false, Bool.or_eq_false_iff, beq_eq_false_iff_ne,
      decide_eq_false_iff_not, UInt32.not_lt] at hnot ⊢
    exact Or.inr (UInt32.le_trans (h.resolve_left hnot.1) hnot.2)
  · simp only [hside, if_true, decide_eq_false_iff_not, UInt32.not_lt] at hnot ⊢
    exact h.imp_right fun hle => UInt32.le_trans hnot hle

/-- One message leaves the best prices uncrossed exactly under its condition. -/
theorem uncrossed_apply_iff (h : Uncrossed b.bestBid b.bestAsk) (hr : b.levelArrays.Ranked)
    (m : DecodedOrder) :
    Uncrossed (b.apply m).bestBid (b.apply m).bestAsk ↔ b.WritesUncrossed m := by
  cases bboStep hr m with
  | kept hadd htakes hreplace hbest hcount =>
    have hbid : (b.apply m).bestBid = b.bestBid := hbest sideBuy
    have hask : (b.apply m).bestAsk = b.bestAsk := hbest sideSell
    rw [hbid, hask]
    refine iff_of_true h ⟨fun htype => fitsOpposite_of_not_improves h (hadd htype),
      fun lo h => absurd h (htakes lo), fun htype lo hlookup => ?_⟩
    rw [hreplace htype] at hlookup
    contradiction
  | improved htype himproves hbest hcount =>
    rw [uncrossed_iff_of_side hbest]
    refine ⟨fun hfits => ⟨fun _ => hfits, fun lo htakes => absurd htype htakes.type_ne.1,
      fun hreplace => ?_⟩, fun hwrites => hwrites.add htype⟩
    rw [htype] at hreplace
    contradiction
  | taken lo htakes hbest hcount =>
    rw [uncrossed_iff_of_side hbest]
    refine ⟨fun hfits => ⟨fun hadd => absurd hadd htakes.type_ne.1, fun lo' htakes' => ?_,
      fun hreplace => absurd hreplace htakes.type_ne.2⟩, fun hwrites => hwrites.taken lo htakes⟩
    obtain rfl := Option.some.inj (htakes.live.symm.trans htakes'.live)
    exact hfits
  | replaced lo htype hlookup hbest hcount =>
    have hbid : (b.apply m).bestBid = _ := hbest sideBuy
    have hask : (b.apply m).bestAsk = _ := hbest sideSell
    rw [hbid, hask]
    refine ⟨fun huncrossed => ⟨fun hadd => ?_, fun lo' htakes => absurd htype htakes.type_ne.2,
      fun _ lo' hlookup' => ?_⟩, fun hwrites => hwrites.replaced htype lo hlookup⟩
    · rw [htype] at hadd
      contradiction
    · obtain rfl := Option.some.inj (hlookup.symm.trans hlookup')
      exact huncrossed

/-- At every point of a history the spread is the difference of the best prices exactly when no
message of it writes a price that crosses the other side. -/
theorem spread_exact_iff_writesUncrossed (messages : List DecodedOrder) :
    (∀ done, done <+: messages → (empty.applyAll done).SpreadExact) ↔
      ∀ done m, done ++ [m] <+: messages → (empty.applyAll done).WritesUncrossed m := by
  simp only [spreadExact_iff]
  refine Schedule.forall_prefix_iff (Or.inl rfl) fun done m _ hdone => ?_
  rw [applyAll_snoc]
  exact uncrossed_apply_iff (hdone done List.prefix_rfl) (applyAll_ranked done) m

/-- A bid at ten and an ask at five. -/
def crossingOrders : List DecodedOrder :=
  [⟨.add, 1, 0, 10, 1, sideBuy, 0⟩, ⟨.add, 2, 0, 5, 1, sideSell, 0⟩]

/-- Both orders rest, and the spread wraps around. -/
theorem crossingOrders_spread_wraps :
    (empty.applyAll crossingOrders).bestBid = 10 ∧ (empty.applyAll crossingOrders).bestAsk = 5 ∧
      (empty.applyAll crossingOrders).spread = 4294967291 ∧
      ¬ ∀ done, done <+: crossingOrders → (empty.applyAll done).SpreadExact := by
  have hbid : (empty.applyAll crossingOrders).bestBid = 10 := by decide +kernel
  have hask : (empty.applyAll crossingOrders).bestAsk = 5 := by decide +kernel
  refine ⟨hbid, hask, by decide +kernel, fun h => ?_⟩
  have hexact := h crossingOrders List.prefix_rfl
  rw [spreadExact_iff, hbid, hask] at hexact
  revert hexact
  unfold Uncrossed
  decide

end OrderBook

end NanoRing
