import NanoRing.Book.LevelTotals
import NanoRing.Book.OrderBook
import NanoRing.Book.OrderContents
import NanoRing.Book.RestingBook
import Mathlib.Data.FinEnum

/-!
# The order book refines the resting orders

Within its capacity the book is a faithful store of resting orders: the order table holds
each of them, and each level array reports the totals of its side. The refinement relation
joins the two; every handler preserves it, and acts on the resting orders as its message
kind says.
-/

namespace NanoRing

/-- The resting orders that a book of one symbol stands for. -/
abbrev Resting := RestingBook UInt64 UInt8 UInt32

/-- The resting order that a live record stands for. -/
def LiveOrder.toResting (o : LiveOrder) : RestingOrder UInt8 UInt32 :=
  ⟨o.side, o.price, o.remainingShares.toNat⟩

namespace Resting

/-- The effect of a message on the resting orders. -/
def step (resting : Resting) (m : DecodedOrder) : Resting :=
  match m.type with
  | .add => RestingBook.add resting m.orderRef ⟨m.side, m.price, m.shares.toNat⟩
  | .execute => RestingBook.execute resting m.orderRef m.shares.toNat
  | .delete => RestingBook.delete resting m.orderRef
  | .replace => RestingBook.replace resting m.orderRef m.newOrderRef m.price m.shares.toNat

/-- The resting orders after a list of messages, starting with none. -/
def after (messages : List DecodedOrder) : Resting := messages.foldl step fun _ => none

/-- The demands on a single message: orders enter with a side, a price, shares and a reference
that is not live; a replacement may keep its reference. -/
def Admissible (resting : Resting) (m : DecodedOrder) : Prop :=
  match m.type with
  | .add => (m.side = sideBuy ∨ m.side = sideSell) ∧ 1 ≤ m.price ∧ 1 ≤ m.shares ∧
      resting m.orderRef = none
  | .replace => resting m.orderRef ≠ none → 1 ≤ m.price ∧ 1 ≤ m.shares ∧
      (resting m.newOrderRef = none ∨ m.newOrderRef = m.orderRef)
  | .execute | .delete => True

/-- The demands that the refinement needs, which leave out the price. -/
def Orderly (resting : Resting) (m : DecodedOrder) : Prop :=
  match m.type with
  | .add => (m.side = sideBuy ∨ m.side = sideSell) ∧ 1 ≤ m.shares ∧ resting m.orderRef = none
  | .replace => resting m.orderRef ≠ none → 1 ≤ m.shares ∧
      (resting m.newOrderRef = none ∨ m.newOrderRef = m.orderRef)
  | .execute | .delete => True

theorem Admissible.orderly {resting : Resting} {m : DecodedOrder} (h : Admissible resting m) :
    Orderly resting m := by
  unfold Admissible at h
  unfold Orderly
  cases htype : m.type with
  | add =>
    rw [htype] at h
    exact ⟨h.1, h.2.2⟩
  | replace =>
    rw [htype] at h
    exact fun hlive => (h hlive).2
  | execute | delete => trivial

/-- Each side has at most 256 distinct live prices, and the shares at one price fit in 32 bits. -/
def WithinCapacity (resting : Resting) : Prop :=
  ∀ side, side = sideBuy ∨ side = sideSell →
    {price | RestingBook.LiveAt resting side price}.ncard ≤ maxLevels ∧
      ∀ price, RestingBook.sharesAt resting side price < 2 ^ 32

/-- Every message is admissible where it is applied, and leaves the orders within capacity. -/
def Feasible : Resting → List DecodedOrder → Prop
  | _, [] => True
  | resting, m :: rest =>
    Admissible resting m ∧ WithinCapacity (resting.step m) ∧ Feasible (resting.step m) rest

/-- Feasibility splits at every point of the list. -/
theorem feasible_append (resting : Resting) (left right : List DecodedOrder) :
    Feasible resting (left ++ right) ↔
      Feasible resting left ∧ Feasible (left.foldl step resting) right := by
  induction left generalizing resting with
  | nil => simp [Feasible]
  | cons m rest ih => simp only [List.cons_append, Feasible, ih, List.foldl_cons, and_assoc]

end Resting

namespace OrderBook

open RestingBook

/-- Each level array reports the totals of its side. -/
def ReportsLevels (b : OrderBook) (resting : Resting) : Prop :=
  b.bids.Reports true (sharesAt resting sideBuy) ∧ b.asks.Reports false (sharesAt resting sideSell)

/-- The book stores exactly the resting orders and reports their totals. -/
structure Refines (b : OrderBook) (resting : Resting) : Prop where
  contents : b.liveOrders.Represents b.liveOrders.lookup
  agrees : ∀ ref, (b.liveOrders.lookup ref).map LiveOrder.toResting = resting ref
  sided : ∀ ref o, resting ref = some o → o.side = sideBuy ∨ o.side = sideSell
  positive : Positive resting
  levels : b.ReportsLevels resting

/-- The empty book has no resting orders. -/
theorem empty_refines : empty.Refines fun _ => none := by
  have hempty : empty.liveOrders.lookup = fun _ => none :=
    funext FlatOrderMap.empty_represents.lookup_eq
  refine ⟨?_, fun ref => ?_, fun ref o h => ?_, fun ref o h => ?_, ?_, ?_⟩
  · rw [hempty]
    exact FlatOrderMap.empty_represents
  · rw [hempty]
    rfl
  · cases h
  · cases h
  · exact (BookSide.reports_empty true).congr fun p => sharesAt_empty _ p
  · exact (BookSide.reports_empty false).congr fun p => sharesAt_empty _ p

/-! ## The level arrays -/

section Levels

variable {b : OrderBook} {resting : Resting} {ref : UInt64} {o : RestingOrder UInt8 UInt32}

/-- A price that is not yet live finds room in a side whose new prices are within capacity. -/
theorem room_of_withinCapacity (o : RestingOrder UInt8 UInt32) {s : BookSide} {descending : Bool}
    (hpositive : Positive resting)
    (hs : s.Reports descending (sharesAt resting o.side)) (habsent : resting ref = none)
    (hpos : 0 < o.remaining)
    (hcap : {price | LiveAt (add resting ref o) o.side price}.ncard ≤ maxLevels) :
    0 < sharesAt resting o.side o.price ∨ s.count < maxLevels := by
  by_cases hlive : LiveAt resting o.side o.price
  · exact Or.inl ((sharesAt_pos_iff hpositive _ _).mpr hlive)
  · right
    have hset : {price | LiveAt (add resting ref o) o.side price} =
        insert o.price {price | 0 < sharesAt resting o.side price} := by
      ext price
      have hpositive' : Positive (add resting ref o) := by
        intro ref' o' h
        by_cases href : ref' = ref
        · subst href
          rw [add, Function.update_self, Option.some.injEq] at h
          exact h ▸ hpos
        · rw [add, Function.update_of_ne href] at h
          exact hpositive ref' o' h
      rw [Set.mem_ofPred_eq, ← sharesAt_pos_iff hpositive', sharesAt_add habsent,
        Set.mem_insert_iff, Set.mem_ofPred_eq]
      by_cases hp : price = o.price
      · subst hp
        rw [contribution_self]
        exact iff_of_true (by omega) (Or.inl rfl)
      · rw [contribution_of_ne fun h => hp h.2.symm, Nat.add_zero]
        simp [hp]
    rw [hset, Set.ncard_insert_of_notMem, hs.ncard_eq] at hcap
    · exact hcap
    · rw [Set.mem_ofPred_eq, sharesAt_pos_iff hpositive]
      exact hlive

/-- Adding a resting order's shares to its level reports the new totals. -/
theorem ReportsLevels.addLevel (h : b.ReportsLevels resting) (hpositive : Positive resting)
    (habsent : resting ref = none) {side : UInt8} (hside : side = sideBuy ∨ side = sideSell)
    {price shares : UInt32} (hpos : 0 < shares.toNat)
    (hcap : Resting.WithinCapacity (add resting ref ⟨side, price, shares.toNat⟩)) :
    (b.addLevel side price shares).ReportsLevels (add resting ref ⟨side, price, shares.toNat⟩) := by
  have hself : sharesAt (add resting ref ⟨side, price, shares.toNat⟩) side price =
      sharesAt resting side price + shares.toNat := by
    rw [sharesAt_add habsent]
    exact congrArg _ (contribution_self (⟨side, price, shares.toNat⟩ : RestingOrder UInt8 UInt32))
  have hother (side' : UInt8) (p : UInt32) (hne : ¬ (side = side' ∧ price = p)) :
      sharesAt (add resting ref ⟨side, price, shares.toNat⟩) side' p = sharesAt resting side' p := by
    rw [sharesAt_add habsent, contribution_of_ne hne, Nat.add_zero]
  obtain ⟨hprices, hfits⟩ := hcap side hside
  obtain ⟨hbids, hasks⟩ := h
  rcases hside with rfl | rfl
  · refine ⟨?_, ?_⟩
    · rw [addLevel_bids, if_pos (by decide)]
      exact hbids.addToLevels hself (fun p hp => hother _ p fun h => hp h.2.symm) hpos (hfits price)
        (room_of_withinCapacity ⟨sideBuy, price, shares.toNat⟩ hpositive hbids habsent hpos hprices)
    · rw [addLevel_asks, if_pos (by decide)]
      exact hasks.congr fun p => hother _ p fun h => absurd h.1 (by decide)
  · refine ⟨?_, ?_⟩
    · rw [addLevel_bids, if_neg (by decide)]
      exact hbids.congr fun p => hother _ p fun h => absurd h.1 (by decide)
    · rw [addLevel_asks, if_neg (by decide)]
      exact hasks.addToLevels hself (fun p hp => hother _ p fun h => hp h.2.symm) hpos (hfits price)
        (room_of_withinCapacity ⟨sideSell, price, shares.toNat⟩ hpositive hasks habsent hpos hprices)

/-- Removing shares of a resting order from its level reports the totals after its entry has
lost as many. -/
theorem ReportsLevels.removeLevel (h : b.ReportsLevels resting) (hentry : resting ref = some o)
    (hside : o.side = sideBuy ∨ o.side = sideSell) (hpos : 0 < o.remaining) {shares : UInt32}
    {entry : Option (RestingOrder UInt8 UInt32)}
    (hself : contribution entry o.side o.price + shares.toNat = o.remaining)
    (hother : ∀ side price, ¬ (o.side = side ∧ o.price = price) → contribution entry side price = 0) :
    (b.removeLevel o.side o.price shares).ReportsLevels (Function.update resting ref entry) := by
  have hat : sharesAt (Function.update resting ref entry) o.side o.price + shares.toNat =
      sharesAt resting o.side o.price := sharesAt_update_add hentry hself
  have helse (side : UInt8) (p : UInt32) (hne : ¬ (o.side = side ∧ o.price = p)) :
      sharesAt (Function.update resting ref entry) side p = sharesAt resting side p := by
    have hsum := sharesAt_update resting ref entry side p
    rw [hentry, contribution_of_ne hne, hother side p hne, Nat.add_zero, Nat.add_zero] at hsum
    exact hsum
  have hlive : 0 < sharesAt resting o.side o.price := by
    have hle := contribution_le_sharesAt resting ref o.side o.price
    rw [hentry, contribution_self] at hle
    omega
  obtain ⟨hbids, hasks⟩ := h
  rcases hside with hside | hside <;> rw [hside] at hat hlive <;> rw [hside] <;> refine ⟨?_, ?_⟩
  · rw [removeLevel_bids, if_pos (by decide)]
    exact hbids.removeFromLevels hat (fun p hp => helse _ p fun h => hp h.2.symm) hlive
  · rw [removeLevel_asks, if_pos (by decide)]
    exact hasks.congr fun p => helse _ p fun h => absurd (hside.symm.trans h.1) (by decide)
  · rw [removeLevel_bids, if_neg (by decide)]
    exact hbids.congr fun p => helse _ p fun h => absurd (hside.symm.trans h.1) (by decide)
  · rw [removeLevel_asks, if_neg (by decide)]
    exact hasks.removeFromLevels hat (fun p hp => helse _ p fun h => hp h.2.symm) hlive

end Levels

/-! ## Orders -/

section Orders

variable {b : OrderBook} {resting : Resting} {ref : UInt64} {map : FlatOrderMap}

/-- Only the order table and the level arrays matter. -/
theorem Refines.congr (h : b.Refines resting) {b' : OrderBook}
    (hmap : b'.liveOrders = b.liveOrders) (hbids : b'.bids = b.bids) (hasks : b'.asks = b.asks) :
    b'.Refines resting where
  contents := hmap ▸ h.contents
  agrees := hmap ▸ h.agrees
  sided := h.sided
  positive := h.positive
  levels := ⟨hbids ▸ h.levels.1, hasks ▸ h.levels.2⟩

/-- A table and levels that follow a change at one reference refine the changed orders. -/
theorem Refines.of_update (h : b.Refines resting) {b' : OrderBook} (entry : Option LiveOrder)
    (hcontents : b'.liveOrders.Represents (Function.update b.liveOrders.lookup ref entry))
    (hside : ∀ o, entry = some o → o.side = sideBuy ∨ o.side = sideSell)
    (hpos : ∀ o, entry = some o → 0 < o.remainingShares.toNat)
    (hlevels : b'.ReportsLevels (Function.update resting ref (entry.map LiveOrder.toResting))) :
    b'.Refines (Function.update resting ref (entry.map LiveOrder.toResting)) := by
  have hlookup : b'.liveOrders.lookup = Function.update b.liveOrders.lookup ref entry :=
    funext hcontents.lookup_eq
  -- an entry of the changed orders is the new one or an old one
  have hentry (ref' : UInt64) (o : RestingOrder UInt8 UInt32)
      (ho : Function.update resting ref (entry.map LiveOrder.toResting) ref' = some o) :
      (∃ record, entry = some record ∧ record.toResting = o) ∨ resting ref' = some o := by
    by_cases href : ref' = ref
    · subst href
      rw [Function.update_self] at ho
      exact Or.inl (Option.map_eq_some_iff.mp ho)
    · rw [Function.update_of_ne href] at ho
      exact Or.inr ho
  refine ⟨hlookup ▸ hcontents, fun ref' => ?_, fun ref' o ho => ?_, fun ref' o ho => ?_, hlevels⟩
  · rw [hlookup]
    by_cases href : ref' = ref
    · subst href
      rw [Function.update_self, Function.update_self]
    · rw [Function.update_of_ne href, Function.update_of_ne href]
      exact h.agrees ref'
  · rcases hentry ref' o ho with ⟨record, hrecord, rfl⟩ | hold
    · exact hside record hrecord
    · exact h.sided ref' o hold
  · rcases hentry ref' o ho with ⟨record, hrecord, rfl⟩ | hold
    · exact hpos record hrecord
    · exact h.positive ref' o hold

/-- Inserting an order and adding its shares to its level adds the order. -/
theorem Refines.addOrder (h : b.Refines resting) (habsent : resting ref = none) {side : UInt8}
    (hside : side = sideBuy ∨ side = sideSell) {price shares : UInt32} (hpos : 1 ≤ shares)
    (hcap : Resting.WithinCapacity (add resting ref ⟨side, price, shares.toNat⟩)) :
    ({ b with liveOrders := b.liveOrders.insert ref ⟨ref, price, shares, side, true⟩ }.addLevel side
      price shares).Refines (add resting ref ⟨side, price, shares.toNat⟩) := by
  have hshares : 0 < shares.toNat := UInt32.le_iff_toNat_le.mp hpos
  have hlookup : b.liveOrders.lookup ref = none := by
    have hagrees := h.agrees ref
    rwa [habsent, Option.map_eq_none_iff] at hagrees
  refine h.of_update (some ⟨ref, price, shares, side, true⟩) ?_ ?_ ?_ ?_
  · rw [addLevel_liveOrders]
    exact h.contents.insert (h.contents.insertInPlace_of_absent hlookup)
  · rintro _ ⟨⟩
    exact hside
  · rintro _ ⟨⟩
    exact hshares
  · refine ReportsLevels.addLevel ?_ h.positive habsent hside hshares hcap
    exact h.levels

/-- The record that `find` returns is the order at that reference. -/
theorem Refines.find_spec (h : b.Refines resting) {idx : ℕ}
    (hfind : b.liveOrders.find ref = some idx) :
    resting ref = some (b.liveOrders.slots idx).toResting := by
  rw [← h.agrees ref, (h.contents.find_spec hfind).1]
  rfl

/-- Where `find` returns null no order rests. -/
theorem Refines.find_none (h : b.Refines resting) (hfind : b.liveOrders.find ref = none) :
    resting ref = none := by
  rw [← h.agrees ref, FlatOrderMap.lookup, hfind]
  rfl

/-- Removing shares of an order from its level, with a table that stores what is left of it,
reduces the order. -/
theorem Refines.reduceOrder (h : b.Refines resting) {idx : ℕ}
    (hfind : b.liveOrders.find ref = some idx) {shares : UInt32} {entry : Option LiveOrder}
    (hmap : map.Represents (Function.update b.liveOrders.lookup ref entry))
    (hentry : (entry = none ∧ shares = (b.liveOrders.slots idx).remainingShares) ∨
      shares < (b.liveOrders.slots idx).remainingShares ∧
        entry = some { b.liveOrders.slots idx with
          remainingShares := (b.liveOrders.slots idx).remainingShares - shares }) :
    { b.removeLevel (b.liveOrders.slots idx).side (b.liveOrders.slots idx).price shares with
      liveOrders := map }.Refines
      (Function.update resting ref (entry.map LiveOrder.toResting)) := by
  have hresting := h.find_spec hfind
  have hside := h.sided ref _ hresting
  have hpositive := h.positive ref _ hresting
  generalize hlo : b.liveOrders.slots idx = lo at *
  -- what is left keeps the side and the price
  have hleft : contribution (entry.map LiveOrder.toResting) lo.side lo.price + shares.toNat =
        lo.remainingShares.toNat ∧
      ∀ side price, ¬ (lo.side = side ∧ lo.price = price) →
        contribution (entry.map LiveOrder.toResting) side price = 0 := by
    rcases hentry with ⟨rfl, rfl⟩ | ⟨hless, rfl⟩
    · exact ⟨Nat.zero_add _, fun _ _ _ => rfl⟩
    · refine ⟨?_, fun side price hne => contribution_of_ne hne⟩
      have hdiff := UInt32.toNat_sub_of_le _ _ (UInt32.le_of_lt hless)
      have hlt := UInt32.lt_iff_toNat_lt.mp hless
      rw [Option.map_some]
      have hself := contribution_self (LiveOrder.toResting
        { lo with remainingShares := lo.remainingShares - shares })
      refine (congrArg (· + shares.toNat) hself).trans ?_
      change (lo.remainingShares - shares).toNat + shares.toNat = _
      omega
  refine h.of_update entry hmap ?_ ?_ ?_
  · rintro o rfl
    rcases hentry with ⟨hnone, -⟩ | ⟨-, hsome⟩
    · contradiction
    · cases hsome
      exact hside
  · rintro o rfl
    rcases hentry with ⟨hnone, -⟩ | ⟨hless, hsome⟩
    · contradiction
    · cases hsome
      change 0 < (lo.remainingShares - shares).toNat
      have hlt := UInt32.lt_iff_toNat_lt.mp hless
      rw [UInt32.toNat_sub_of_le _ _ (UInt32.le_of_lt hless)]
      omega
  · exact h.levels.removeLevel hresting hside hpositive hleft.1 hleft.2

/-- Removing all shares of an order from its level and erasing it deletes the order. -/
theorem Refines.dropOrder (h : b.Refines resting) {idx : ℕ}
    (hfind : b.liveOrders.find ref = some idx) :
    { b.removeLevel (b.liveOrders.slots idx).side (b.liveOrders.slots idx).price
        (b.liveOrders.slots idx).remainingShares with
      liveOrders := b.liveOrders.erase ref }.Refines (delete resting ref) :=
  h.reduceOrder hfind (h.contents.erase ref) (Or.inl ⟨rfl, rfl⟩)

end Orders

end OrderBook

end NanoRing
