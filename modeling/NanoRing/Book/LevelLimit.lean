import NanoRing.Book.LiveOrders
import NanoRing.Book.TopOfBook

/-!
# The level limit

A side holds at most 256 levels, and `add_to_levels` drops an order at a further price without a
word. By then the order is in the map, and the handler goes on as if its shares had been
entered: the order may set the best price, and a later fill takes its shares from a level that
never had them. This happens exactly to the orders that find no room.
-/

namespace NanoRing

namespace OrderBook

open BookSide (Before)

variable {b : OrderBook} {m : DecodedOrder}

/-- An order on its way into the book: its reference and side, the level arrays as
`add_to_levels` finds them, and the best prices without it. -/
structure Entry where
  ref : UInt64
  side : UInt8
  arrays : LevelArrays
  best : UInt8 → UInt32

/-- The array of the order's side has no level for its price and cannot take one more. -/
def Entry.Refused (e : Entry) (price : UInt32) : Prop := (e.arrays.array e.side).Refuses price

/-- The order that a message enters. When a Replace enters its new order, the old one has left
the arrays, and the best prices are read from them. -/
def entry (b : OrderBook) (m : DecodedOrder) : Option Entry :=
  match m.type with
  | .add => some ⟨m.orderRef, m.side, b.levelArrays, b.bestOf⟩
  | .replace =>
    (b.liveOrders.lookup m.orderRef).map fun lo =>
      let arrays := b.levelArrays.call (.remove lo.side lo.price lo.remainingShares)
      ⟨m.newOrderRef, lo.side, arrays, fun side => (arrays.array side).top⟩
  | .execute => none
  | .delete => none

/-- The reference of the order that the message enters is not live. -/
def FreshRef (b : OrderBook) (m : DecodedOrder) : Prop :=
  ∀ e, b.entry m = some e → b.liveOrders.lookup e.ref = none

/-- The order is live exactly when its shares are entered in a level, and moves a best price
only then. -/
def AllOrNothing (b : OrderBook) (m : DecodedOrder) : Prop :=
  ∀ e, b.entry m = some e →
    ((b.apply m).liveOrders.lookup e.ref ≠ none ↔ ¬ e.Refused m.price) ∧
      (e.Refused m.price → ∀ side, (b.apply m).bestOf side = e.best side)

/-- The side of the order has a level at its price or room for one; the old order of a Replace
makes room when it is the last one of its level. -/
def HasRoom (b : OrderBook) (m : DecodedOrder) : Prop :=
  match m.type with
  | .add =>
    let s := b.levelArrays.array m.side
    s.count < maxLevels ∨ m.price ∈ s.prices
  | .replace =>
    ∀ lo, b.liveOrders.lookup m.orderRef = some lo →
      let s := b.levelArrays.array lo.side
      s.count < maxLevels ∨ m.price ∈ s.prices ∨ s.Covers lo.price lo.remainingShares
  | .execute => True
  | .delete => True

/-- Of each reference, whether the shares of the order that it was last entered for were entered
in a level, updated by one message. -/
def trackEntered (b : OrderBook) (entered : UInt64 → Prop) (m : DecodedOrder) : UInt64 → Prop :=
  (b.entry m).elim entered fun e => Function.update entered e.ref (¬ e.Refused m.price)

/-- The book after a history, and of which references the shares were entered in a level. -/
def track (messages : List DecodedOrder) : OrderBook × (UInt64 → Prop) :=
  messages.foldl (fun s m => (s.1.apply m, s.1.trackEntered s.2 m)) (empty, fun _ => False)

/-- The shares of the order that the reference was last entered for are in a level. -/
def Entered (messages : List DecodedOrder) (ref : UInt64) : Prop := (track messages).2 ref

/-! ## One message -/

theorem enteredRef_eq (b : OrderBook) (m : DecodedOrder) :
    b.enteredRef m = (b.entry m).map Entry.ref := by
  unfold enteredRef entry
  cases m.type with
  | add => rfl
  | execute => rfl
  | delete => rfl
  | replace =>
    dsimp only
    rw [Option.map_map]
    rfl

/-- The order of a message finds room exactly when it is not refused. -/
theorem hasRoom_iff (hr : b.levelArrays.Ranked) :
    b.HasRoom m ↔ ∀ e, b.entry m = some e → ¬ e.Refused m.price := by
  unfold HasRoom entry
  cases m.type with
  | add =>
    simp only [Option.some.injEq, forall_eq', Entry.Refused, BookSide.Refuses, not_and_or, not_le,
      not_not]
  | execute => exact iff_of_true trivial fun e he => by cases he
  | delete => exact iff_of_true trivial fun e he => by cases he
  | replace =>
    cases b.liveOrders.lookup m.orderRef with
    | none => exact iff_of_true (fun lo hlo => by cases hlo) fun e he => by cases he
    | some lo =>
      simp only [Option.some.injEq, forall_eq', Option.map_some, Entry.Refused, LevelArrays.call,
        LevelArrays.array_setArray_self]
      rw [(hr lo.side).refuses_removeFromLevels_iff]
      simp only [BookSide.Refuses, not_and_or, not_le, not_not, or_assoc]

/-- The order that a message enters is live afterwards, entered in a level or not. -/
theorem lookup_entry_ne_none (h : b.liveOrders.WellFormed) {e : Entry}
    (he : b.entry m = some e) : (b.apply m).liveOrders.lookup e.ref ≠ none := by
  refine (lookup_apply h m).2.1 e.ref ?_
  rw [enteredRef_eq, he, Option.map_some]

/-- A message is all or nothing exactly when its order finds room. -/
theorem allOrNothing_iff (h : b.liveOrders.WellFormed) (hr : b.levelArrays.Ranked) :
    b.AllOrNothing m ↔ b.HasRoom m := by
  rw [hasRoom_iff hr]
  refine forall₂_congr fun e he => ?_
  have hlive := lookup_entry_ne_none h he
  exact ⟨fun hall => hall.1.mp hlive,
    fun hroom => ⟨iff_of_true hlive hroom, fun hrefused => absurd hrefused hroom⟩⟩

/-! ## Runs -/

theorem track_snoc (done : List DecodedOrder) (m : DecodedOrder) :
    track (done ++ [m]) = ((track done).1.apply m, (track done).1.trackEntered (track done).2 m) := by
  rw [track, List.foldl_concat, ← track]

theorem track_book (messages : List DecodedOrder) : (track messages).1 = empty.applyAll messages := by
  induction messages using List.reverseRecOn with
  | nil => rfl
  | append_singleton done m ih => rw [track_snoc, applyAll_snoc, ih]

theorem entered_snoc (done : List DecodedOrder) (m : DecodedOrder) :
    Entered (done ++ [m]) = (empty.applyAll done).trackEntered (Entered done) m := by
  funext ref
  rw [Entered, track_snoc, track_book]
  rfl

/-- All live orders have their shares in a level after a message exactly when the order that it
enters finds room, if they had before. -/
theorem live_entered_iff (h : b.liveOrders.WellFormed) (hr : b.levelArrays.Ranked)
    {entered : UInt64 → Prop} (hlive : ∀ ref, b.liveOrders.lookup ref ≠ none → entered ref) :
    (∀ ref, (b.apply m).liveOrders.lookup ref ≠ none → b.trackEntered entered m ref) ↔
      b.HasRoom m := by
  obtain ⟨-, hnew, hold⟩ := lookup_apply h m
  rw [hasRoom_iff hr]
  rw [enteredRef_eq] at hnew hold
  unfold trackEntered
  cases hentry : b.entry m with
  | none =>
    rw [hentry, Option.map_none] at hold
    refine iff_of_true (fun ref hfound => hlive ref ?_) fun e he => by cases he
    exact (hold ref hfound).resolve_left fun href => by cases href
  | some e =>
    rw [hentry, Option.map_some] at hnew hold
    simp only [Option.elim_some, Option.some.injEq, forall_eq'] at hnew hold ⊢
    constructor
    · intro hall
      have hself := hall e.ref hnew
      rwa [Function.update_self] at hself
    · intro hroom ref hfound
      by_cases href : ref = e.ref
      · rw [href, Function.update_self]
        exact hroom
      · rw [Function.update_of_ne href]
        exact hlive ref ((hold ref hfound).resolve_left (Ne.symm href))

/-- At every point of every history, a message with a fresh reference is all or nothing exactly
when its order finds room; and every live order has its shares in a level at every point
exactly when every order found room. -/
theorem all_or_nothing_iff (messages : List DecodedOrder) :
    ((∀ done m, done ++ [m] <+: messages → (empty.applyAll done).FreshRef m →
        (empty.applyAll done).AllOrNothing m) ↔
      ∀ done m, done ++ [m] <+: messages → (empty.applyAll done).FreshRef m →
        (empty.applyAll done).HasRoom m) ∧
    ((∀ done, done <+: messages → ∀ ref, (empty.applyAll done).liveOrders.lookup ref ≠ none →
        Entered done ref) ↔
      ∀ done m, done ++ [m] <+: messages → (empty.applyAll done).HasRoom m) := by
  constructor
  · refine forall₄_congr fun done m _ _ => ?_
    exact allOrNothing_iff (applyAll_wellFormed done) (applyAll_ranked done)
  · refine Schedule.forall_prefix_iff (fun ref hfound => absurd ?_ hfound) fun done m _ hdone => ?_
    · exact FlatOrderMap.empty_represents.lookup_eq ref
    · rw [applyAll_snoc, entered_snoc]
      exact live_entered_iff (applyAll_wellFormed done) (applyAll_ranked done)
        (hdone done List.prefix_rfl)

/-! ### A 257th price -/

/-- The `i`-th of the buy orders at prices one, two, three and so on. -/
def ascendingBid (i : ℕ) : DecodedOrder :=
  ⟨.add, .ofNat (i + 1), 0, .ofNat (i + 1), 10, sideBuy, 0⟩

def ascendingBids (n : ℕ) : List DecodedOrder := (List.range n).map ascendingBid

/-- What the first buy orders leave: as many levels, and no price or reference beyond them. -/
structure Ascended (n : ℕ) (b : OrderBook) : Prop where
  count_eq : b.bids.count = n
  best_eq : b.bestBid = .ofNat n
  price_le : ∀ p ∈ b.bids.prices, p.toNat ≤ n
  ref_le : ∀ ref, b.liveOrders.lookup ref ≠ none → ref.toNat ≤ n

theorem ascendingBids_succ (n : ℕ) : ascendingBids (n + 1) = ascendingBids n ++ [ascendingBid n] := by
  rw [ascendingBids, List.range_succ, List.map_append]
  rfl

theorem bestBid_apply_ascendingBid (b : OrderBook) (n : ℕ) :
    (b.apply (ascendingBid n)).bestBid =
      if improves true (.ofNat (n + 1)) b.bestBid then .ofNat (n + 1) else b.bestBid := by
  refine (bestOf_improveBbo _ sideBuy sideBuy _).trans ?_
  rw [if_pos rfl, bestOf_addLevel]
  rfl

theorem bids_apply_ascendingBid (b : OrderBook) (n : ℕ) :
    (b.apply (ascendingBid n)).bids = b.bids.addToLevels (.ofNat (n + 1)) 10 true :=
  congrArg LevelArrays.bids (b.levelArrays_apply (ascendingBid n))

theorem Ascended.succ {n : ℕ} (h : Ascended n b) (hw : b.liveOrders.WellFormed)
    (hr : b.levelArrays.Ranked) (hn : n < maxLevels) :
    Ascended (n + 1) (b.apply (ascendingBid n)) := by
  have hsize : n + 1 < UInt32.size := (Nat.add_lt_add_right hn 1).trans (by decide)
  have hprice : (UInt32.ofNat (n + 1)).toNat = n + 1 := UInt32.toNat_ofNat_of_lt hsize
  have hsorted : b.bids.Sorted true := (hr sideBuy).sorted
  have habsent : UInt32.ofNat (n + 1) ∉ b.bids.prices := fun hmem => by
    have hle := h.price_le _ hmem
    omega
  refine ⟨?_, ?_, fun p hp => ?_, fun ref hfound => ?_⟩
  · rw [bids_apply_ascendingBid]
    have hcount := h.count_eq
    cases (hsorted.addToLevels_spec (.ofNat (n + 1)) 10).2 with
    | bumped old hold hold_price _ _ =>
      exact absurd (BookSide.mem_prices.mpr ⟨old, hold, hold_price⟩) habsent
    | inserted _ _ hinserted _ => omega
    | refused _ hfull _ => omega
  · have hbetter : improves true (.ofNat (n + 1)) b.bestBid = true := by
      have hbest : b.bestBid.toNat = n := by
        rw [h.best_eq]
        exact UInt32.toNat_ofNat_of_lt ((Nat.lt_succ_self n).trans hsize)
      simp only [improves, if_true, gt_iff_lt, decide_eq_true_eq, UInt32.lt_iff_toNat_lt, hbest,
        hprice]
      exact Nat.lt_succ_self n
    rw [bestBid_apply_ascendingBid, if_pos hbetter]
  · rw [bids_apply_ascendingBid, hsorted.mem_prices_addToLevels] at hp
    rcases hp with hold | ⟨rfl, -⟩
    · exact (h.price_le p hold).trans (Nat.le_succ n)
    · exact hprice.le
  · rcases (lookup_apply hw (ascendingBid n)).2.2 ref hfound with href | hold
    · obtain rfl := Option.some.inj href
      exact (Nat.mod_le _ _)
    · exact (h.ref_le ref hold).trans (Nat.le_succ n)

theorem ascended (n : ℕ) (hn : n ≤ maxLevels) : Ascended n (empty.applyAll (ascendingBids n)) := by
  induction n with
  | zero =>
    refine ⟨rfl, rfl, fun p hp => ?_, fun ref hfound => absurd ?_ hfound⟩
    · cases hp
    · exact FlatOrderMap.empty_represents.lookup_eq ref
  | succ n ih =>
    rw [ascendingBids_succ, applyAll_snoc]
    exact (ih (Nat.le_of_succ_le hn)).succ (applyAll_wellFormed _) (applyAll_ranked _) hn

/-- The 257th order is refused, and yet it is live and sets the best bid. -/
theorem Ascended.refused (h : Ascended 256 b) (hw : b.liveOrders.WellFormed)
    (hr : b.levelArrays.Ranked) :
    (b.apply (ascendingBid 256)).bestBid = 257 ∧ 257 ∉ (b.apply (ascendingBid 256)).bids.prices ∧
      (b.apply (ascendingBid 256)).liveOrders.lookup 257 ≠ none ∧ b.FreshRef (ascendingBid 256) ∧
      ¬ b.AllOrNothing (ascendingBid 256) := by
  have hsorted : b.bids.Sorted true := (hr sideBuy).sorted
  have habsent : (257 : UInt32) ∉ b.bids.prices := fun hmem =>
    absurd (h.price_le _ hmem) (by decide)
  have hrefuses : b.bids.Refuses 257 := ⟨h.count_eq.ge, habsent⟩
  have hlive := (lookup_apply hw (ascendingBid 256)).2.1 257 rfl
  refine ⟨?_, ?_, hlive, fun e he => ?_, fun hall => (hall _ rfl).1.mp hlive hrefuses⟩
  · rw [bestBid_apply_ascendingBid, h.best_eq]
    rfl
  · rw [bids_apply_ascendingBid]
    intro hmem
    rcases (hsorted.mem_prices_addToLevels _ _ _).mp hmem with hold | ⟨-, hroom⟩
    · exact habsent hold
    · exact hroom hrefuses
  · obtain rfl := Option.some.inj he
    by_contra hfound
    have hle : (257 : UInt64).toNat ≤ 256 := h.ref_le 257 hfound
    exact absurd hle (by decide)

theorem ascendingBids_not_all_or_nothing :
    (empty.applyAll (ascendingBids 257)).bestBid = 257 ∧
      257 ∉ (empty.applyAll (ascendingBids 257)).bids.prices ∧
      (empty.applyAll (ascendingBids 257)).liveOrders.lookup 257 ≠ none ∧
      ¬ ∀ done m, done ++ [m] <+: ascendingBids 257 → (empty.applyAll done).FreshRef m →
        (empty.applyAll done).AllOrNothing m := by
  obtain ⟨hbest, hprices, hlive, hfresh, hnot⟩ :=
    (ascended 256 le_rfl).refused (applyAll_wellFormed _) (applyAll_ranked _)
  rw [ascendingBids_succ, applyAll_snoc]
  exact ⟨hbest, hprices, hlive, fun hall => hnot (hall _ _ List.prefix_rfl hfresh)⟩

end OrderBook

end NanoRing
