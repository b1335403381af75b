import NanoRing.Book.BboSteps

/-!
# The statistic of best-price changes

`handle_add` counts a new best price when it is one. Reading the arrays again counts too, and
there the price that is read may be the cached one: then a call is counted that changed nothing.
The count is therefore never too low, and right when every message that is counted moves a price.
-/

namespace NanoRing

namespace OrderBook

variable {b b' : OrderBook} {m : DecodedOrder}

/-- The best bid and the best ask. -/
def bbo (b : OrderBook) : UInt32 × UInt32 := (b.bestBid, b.bestAsk)

/-- One for a message after which the best prices differ from those before, zero for any other. -/
def bboMove (b : OrderBook) (m : DecodedOrder) : ℕ := if (b.apply m).bbo = b.bbo then 0 else 1

/-- The number of messages after which the best prices differ from those before. -/
def bboMoves (b : OrderBook) : List DecodedOrder → ℕ
  | [] => 0
  | m :: rest => b.bboMove m + (b.apply m).bboMoves rest

/-- A message that is counted moves a best price. -/
structure CountsMove (b : OrderBook) (m : DecodedOrder) : Prop where
  add : m.type = .add → m.side ≠ sideBuy → b.bestAsk = 0 → m.price ≠ 0
  taken : ∀ lo, b.TakesBest m lo →
    (b.levelArrays.array lo.side).topLeft lo.price lo.remainingShares ≠ lo.price
  replaced : m.type = .replace → ∀ lo, b.liveOrders.lookup m.orderRef = some lo →
    ∃ side, b.topReplaced lo m.price side ≠ b.bestOf side

theorem bbo_eq_iff : b'.bbo = b.bbo ↔ ∀ side, b'.bestOf side = b.bestOf side := by
  unfold bbo bestOf
  rw [Prod.mk.injEq]
  constructor
  · rintro ⟨hbid, hask⟩ side
    rw [hbid, hask]
  · intro h
    exact ⟨h sideBuy, h sideSell⟩

/-- A price written for one side is a move exactly when it is not the cached one. -/
theorem bbo_eq_iff_of_side {side : UInt8} {price : UInt32}
    (hbest : ∀ side', b'.bestOf side' =
      if (side' == sideBuy) = (side == sideBuy) then price else b.bestOf side') :
    b'.bbo = b.bbo ↔ price = b.bestOf side := by
  rw [bbo_eq_iff]
  constructor
  · intro h
    rw [← h side, hbest, if_pos rfl]
  · intro hsame side'
    rw [hbest]
    split
    · rename_i hside
      rw [hsame, bestOf_congr hside]
    · rfl

/-- An improved price is the cached one only for an ask at price zero: zero is taken for no
price. -/
theorem eq_of_improves_iff {descending : Bool} {price best : UInt32}
    (h : improves descending price best = true) :
    price = best ↔ descending = false ∧ best = 0 ∧ price = 0 := by
  unfold improves at h
  cases descending
  · simp only [Bool.false_eq_true, if_false, Bool.or_eq_true, beq_iff_eq, decide_eq_true_eq,
      true_and] at h ⊢
    constructor
    · rintro rfl
      have hzero := h.resolve_right (UInt32.lt_irrefl _)
      exact ⟨hzero, hzero⟩
    · rintro ⟨rfl, rfl⟩
      rfl
  · simp only [if_true, decide_eq_true_eq, reduceCtorEq, false_and, iff_false] at h ⊢
    rintro rfl
    exact absurd h (UInt32.lt_irrefl _)

theorem bboMove_le_one (b : OrderBook) (m : DecodedOrder) : b.bboMove m ≤ 1 := by
  unfold bboMove
  split <;> decide

theorem bboMove_eq_zero_iff : b.bboMove m = 0 ↔ (b.apply m).bbo = b.bbo := by
  unfold bboMove
  split
  · rename_i hsame
    exact iff_of_true rfl hsame
  · rename_i hmoved
    exact iff_of_false one_ne_zero hmoved

theorem one_eq_bboMove_iff : 1 = b.bboMove m ↔ (b.apply m).bbo ≠ b.bbo := by
  have hle := b.bboMove_le_one m
  rw [ne_eq, ← bboMove_eq_zero_iff]
  omega

/-- A message that moves a best price is counted, and any other is not exactly under the
condition. -/
theorem exists_counted (hr : b.levelArrays.Ranked) (m : DecodedOrder) :
    ∃ counted, (b.apply m).stats.bboChanges = b.stats.bboChanges + counted ∧
      b.bboMove m ≤ counted ∧ (counted = b.bboMove m ↔ b.CountsMove m) := by
  cases bboStep hr m with
  | kept hadd htakes hreplace hbest hcount =>
    have hzero := bboMove_eq_zero_iff.mpr (bbo_eq_iff.mpr hbest)
    refine ⟨0, hcount, hzero.le, iff_of_true hzero.symm ⟨fun htype hask hbest hprice => ?_,
      fun lo h => absurd h (htakes lo), fun htype lo hlookup => ?_⟩⟩
    · have hnot := hadd htype
      simp [improves, hask, bestOf, hbest] at hnot
    · rw [hreplace htype] at hlookup
      contradiction
  | improved htype himproves hbest hcount =>
    refine ⟨1, hcount, b.bboMove_le_one m, ?_⟩
    rw [one_eq_bboMove_iff, ne_eq, bbo_eq_iff_of_side hbest, eq_of_improves_iff himproves]
    constructor
    · intro hmoved
      refine ⟨fun _ hask hbest hprice => hmoved ⟨beq_false_of_ne hask, ?_, hprice⟩,
        fun lo htakes => absurd htype htakes.type_ne.1, fun hreplace => ?_⟩
      · rw [bestOf, beq_false_of_ne hask]
        exact hbest
      · rw [htype] at hreplace
        contradiction
    · rintro hcounts ⟨hask, hbest, hprice⟩
      rw [bestOf, hask] at hbest
      exact hcounts.add htype (ne_of_beq_false hask) hbest hprice
  | taken lo htakes hbest hcount =>
    refine ⟨1, hcount, b.bboMove_le_one m, ?_⟩
    rw [one_eq_bboMove_iff, ne_eq, bbo_eq_iff_of_side hbest, ← htakes.best]
    constructor
    · intro hmoved
      refine ⟨fun hadd => absurd hadd htakes.type_ne.1, fun lo' htakes' => ?_,
        fun hreplace => absurd hreplace htakes.type_ne.2⟩
      obtain rfl := Option.some.inj (htakes.live.symm.trans htakes'.live)
      exact hmoved
    · intro hcounts
      exact hcounts.taken lo htakes
  | replaced lo htype hlookup hbest hcount =>
    refine ⟨1, hcount, b.bboMove_le_one m, ?_⟩
    rw [one_eq_bboMove_iff, ne_eq, bbo_eq_iff, not_forall]
    simp only [hbest]
    constructor
    · intro hmoved
      refine ⟨fun hadd => ?_, fun lo' htakes => absurd htype htakes.type_ne.2,
        fun _ lo' hlookup' => ?_⟩
      · rw [htype] at hadd
        contradiction
      · obtain rfl := Option.some.inj (hlookup.symm.trans hlookup')
        exact hmoved
    · intro hcounts
      exact hcounts.replaced htype lo hlookup

theorem bboMoves_snoc (b : OrderBook) (messages : List DecodedOrder) (m : DecodedOrder) :
    b.bboMoves (messages ++ [m]) = b.bboMoves messages + (b.applyAll messages).bboMove m := by
  induction messages generalizing b with
  | nil => exact Nat.add_comm _ _
  | cons first rest ih =>
    rw [List.cons_append, bboMoves, bboMoves, ih, Nat.add_assoc]
    rfl

/-- After any history the statistic is the number of messages that moved a best price exactly
when every counted message of it moved one. -/
theorem bboChanges_eq_bboMoves_iff (messages : List DecodedOrder) :
    (empty.applyAll messages).stats.bboChanges = empty.bboMoves messages ↔
      ∀ done m, done ++ [m] <+: messages → (empty.applyAll done).CountsMove m := by
  refine Schedule.count_eq_iff (f := fun messages => (empty.applyAll messages).stats.bboChanges)
    rfl fun done m => ?_
  obtain ⟨counted, hcount, hle, hiff⟩ := exists_counted (applyAll_ranked done) m
  refine ⟨counted, _, ?_, bboMoves_snoc empty done m, hle, hiff⟩
  rw [applyAll_snoc]
  exact hcount

/-- Two bids at one price, of which the first is cancelled. -/
def halfCancelledBids : List DecodedOrder :=
  [⟨.add, 1, 0, 100, 10, sideBuy, 0⟩, ⟨.add, 2, 0, 100, 10, sideBuy, 0⟩, ⟨.delete, 1, 0, 0, 0, 0, 0⟩]

/-- The cancel is counted and the best bid stays. -/
theorem halfCancelledBids_overcounted :
    (empty.applyAll halfCancelledBids).stats.bboChanges = 2 ∧
      empty.bboMoves halfCancelledBids = 1 ∧
      ¬ (empty.applyAll halfCancelledBids).stats.bboChanges = empty.bboMoves halfCancelledBids := by
  have hcount : (empty.applyAll halfCancelledBids).stats.bboChanges = 2 := by decide +kernel
  have hmoves : empty.bboMoves halfCancelledBids = 1 := by decide +kernel
  refine ⟨hcount, hmoves, ?_⟩
  rw [hcount, hmoves]
  decide

end OrderBook

end NanoRing
