import NanoRing.Book.OrderCounts

/-!
# The share totals of the levels

A level sums the shares of its orders in 32 bits, and `remove_from_levels` compares with that
sum. As long as the shares that rest at each side and price fit in 32 bits, the sum is right:
the addition does not wrap and no level goes while an order of it rests. The first time they do
not fit, the addition wraps.
-/

namespace NanoRing

namespace Resting

open RestingBook

/-- The shares that rest at each side and price fit in 32 bits. -/
def Fits (resting : Resting) : Prop := ∀ side price, sharesAt resting side price < 2 ^ 32

/-- Orders enter with a known side, with shares and with a reference that is not live, and at
most 256 distinct prices are live on a side. -/
structure OrderlyRun (messages : List DecodedOrder) : Prop where
  orderly : ∀ done m, done ++ [m] <+: messages → (after done).Orderly m
  prices : ∀ done, done <+: messages → ∀ side, side = sideBuy ∨ side = sideSell →
    {price | LiveAt (after done) side price}.ncard ≤ maxLevels

theorem OrderlyRun.of_prefix {messages done : List DecodedOrder} (h : OrderlyRun messages)
    (hdone : done <+: messages) : OrderlyRun done where
  orderly := fun before m hbefore => h.orderly before m (hbefore.trans hdone)
  prices := fun before hbefore => h.prices before (hbefore.trans hdone)

/-- A new order's shares fit when they fit at its own side and price. -/
theorem Fits.add_iff {resting : Resting} (h : Fits resting) {ref : UInt64}
    (habsent : resting ref = none) (o : RestingOrder UInt8 UInt32) :
    Fits (RestingBook.add resting ref o) ↔ sharesAt resting o.side o.price + o.remaining < 2 ^ 32 := by
  have hself : sharesAt (RestingBook.add resting ref o) o.side o.price =
      sharesAt resting o.side o.price + o.remaining := by
    rw [sharesAt_add habsent, contribution_self]
  refine ⟨fun hfits => hself ▸ hfits o.side o.price, fun hlt side price => ?_⟩
  by_cases hat : o.side = side ∧ o.price = price
  · obtain ⟨rfl, rfl⟩ := hat
    rw [hself]
    exact hlt
  · rw [sharesAt_add habsent, contribution_of_ne hat, Nat.add_zero]
    exact h side price

/-- What fits still fits when an order loses shares. -/
theorem Fits.update {resting : Resting} (h : Fits resting) {ref : UInt64}
    {entry : Option (RestingOrder UInt8 UInt32)}
    (hle : ∀ side price, contribution entry side price ≤ contribution (resting ref) side price) :
    Fits (Function.update resting ref entry) :=
  fun side price => (sharesAt_update_le (hle side price)).trans_lt (h side price)

end Resting

namespace OrderBook

open RestingBook

/-- The 32-bit addition of `add_to_levels` does not wrap. -/
def AddsExactly (s : BookSide) (price shares : UInt32) : Prop :=
  ∀ level, s.Has level → level.price = price → level.totalShares.toNat + shares.toNat < 2 ^ 32

/-- `remove_from_levels` takes the level away only when no live order of its side and price has
shares left. -/
def RemovesSpent (s : BookSide) (live : FlatOrderMap) (side : UInt8) (price shares : UInt32) :
    Prop :=
  s.Covers price shares → ∀ ref lo, live.lookup ref = some lo → lo.side = side →
    lo.price = price → lo.remainingShares = 0

/-- The calls of the level helpers for a message add exactly and remove spent levels only. A
Replace removes first, and its new order is not yet live then. -/
def KeepsTotals (b : OrderBook) (m : DecodedOrder) : Prop :=
  match m.type with
  | .add => AddsExactly (b.levelArrays.array m.side) m.price m.shares
  | .execute =>
    ∀ lo, b.liveOrders.lookup m.orderRef = some lo →
      RemovesSpent (b.levelArrays.array lo.side) (b.apply m).liveOrders lo.side lo.price
        (lo.executed m.shares)
  | .delete =>
    ∀ lo, b.liveOrders.lookup m.orderRef = some lo →
      RemovesSpent (b.levelArrays.array lo.side) (b.apply m).liveOrders lo.side lo.price
        lo.remainingShares
  | .replace =>
    ∀ lo, b.liveOrders.lookup m.orderRef = some lo →
      RemovesSpent (b.levelArrays.array lo.side) (b.liveOrders.erase m.orderRef) lo.side lo.price
        lo.remainingShares ∧
      AddsExactly
        ((b.levelArrays.call (.remove lo.side lo.price lo.remainingShares)).array lo.side) m.price
        m.shares

variable {b b' : OrderBook} {resting resting' : Resting} {m : DecodedOrder} {ref : UInt64}

/-- An addition is exact when the shares that rest at its side and price fit with the new ones. -/
theorem Refines.addsExactly_iff (h : b.Refines resting) {side : UInt8}
    (hside : side = sideBuy ∨ side = sideSell) (price shares : UInt32) :
    AddsExactly (b.levelArrays.array side) price shares ↔
      sharesAt resting side price + shares.toNat < 2 ^ 32 := by
  have hreports := h.reports hside
  constructor
  · intro hexact
    rcases Nat.eq_zero_or_pos (sharesAt resting side price) with hzero | hpos
    · rw [hzero, Nat.zero_add]
      exact shares.toNat_lt
    · obtain ⟨level, hlevel, rfl⟩ := hreports.complete price hpos
      rw [← (hreports.level level hlevel).1]
      exact hexact level hlevel rfl
  · rintro hlt level hlevel rfl
    rw [(hreports.level level hlevel).1]
    exact hlt

/-- A removal of the shares that an order loses takes only a spent level away. -/
theorem Refines.removesSpent (h : b.Refines resting) (h' : b'.Refines resting') {side : UInt8}
    (hside : side = sideBuy ∨ side = sideSell) {price shares : UInt32}
    (hlost : sharesAt resting' side price + shares.toNat = sharesAt resting side price) :
    RemovesSpent (b.levelArrays.array side) b'.liveOrders side price shares := by
  rintro ⟨level, hlevel, rfl, hcover⟩ live lo hlive rfl hprice
  have htotal := ((h.reports hside).level level hlevel).1
  have hresting : resting' live = some lo.toResting := by
    rw [← h'.agrees live, hlive, Option.map_some]
  have hpart := contribution_le_sharesAt resting' live lo.side level.price
  rw [hresting, ← hprice] at hpart
  have hown : contribution (some lo.toResting) lo.side lo.price = lo.remainingShares.toNat :=
    contribution_self lo.toResting
  have hle := UInt32.le_iff_toNat_le.mp hcover
  rw [hprice] at hpart hown
  refine UInt32.toNat_inj.mp ?_
  change lo.remainingShares.toNat = 0
  omega

theorem toNat_executed (lo : LiveOrder) (shares : UInt32) :
    (lo.executed shares).toNat = min shares.toNat lo.remainingShares.toNat := by
  unfold LiveOrder.executed
  split
  · rename_i hgt
    exact (min_eq_right (UInt32.lt_iff_toNat_lt.mp hgt).le).symm
  · rename_i hle
    exact (min_eq_left (UInt32.le_iff_toNat_le.mp (UInt32.not_lt.mp hle))).symm

/-- A message keeps the totals exactly when the shares still fit after it. -/
theorem Refines.keepsTotals_iff (h : b.Refines resting) (hfits : Resting.Fits resting)
    (hm : Resting.Orderly resting m) : b.KeepsTotals m ↔ Resting.Fits (Resting.step resting m) := by
  unfold Resting.Orderly at hm
  unfold KeepsTotals Resting.step
  cases htype : m.type with
  | add =>
    rw [htype] at hm
    rw [h.addsExactly_iff hm.1, hfits.add_iff hm.2.2]
  | execute =>
    have hafter : (b.apply m).Refines (execute resting m.orderRef m.shares.toNat) := by
      rw [OrderBook.apply, htype]
      exact h.handleExecute
    cases hlookup : b.liveOrders.lookup m.orderRef with
    | none =>
      rw [execute, h.resting_eq_none hlookup]
      exact iff_of_true (fun lo hlo => by cases hlo) hfits
    | some lo =>
      obtain ⟨idx, hfind, rfl⟩ := FlatOrderMap.exists_find hlookup
      have hentry := h.find_spec hfind
      obtain ⟨entry, hupdate, hlost, hle⟩ := execute_spec hentry m.shares.toNat
      rw [hupdate] at hafter ⊢
      refine iff_of_true (fun lo hlo => ?_) (hfits.update hle)
      obtain rfl := Option.some.inj hlo
      refine h.removesSpent hafter (h.sided _ _ hentry) (sharesAt_update_add hentry ?_)
      rw [toNat_executed]
      exact hlost
  | delete =>
    have hafter : (b.apply m).Refines (delete resting m.orderRef) := by
      rw [OrderBook.apply, htype]
      exact h.handleDelete
    refine iff_of_true (fun lo hlo => ?_) (hfits.update fun _ _ => Nat.zero_le _)
    obtain ⟨idx, hfind, rfl⟩ := FlatOrderMap.exists_find hlo
    have hentry := h.find_spec hfind
    exact h.removesSpent hafter (h.sided _ _ hentry)
      (sharesAt_update_add hentry (Nat.zero_add _))
  | replace =>
    rw [htype] at hm
    cases hlookup : b.liveOrders.lookup m.orderRef with
    | none =>
      rw [replace, h.resting_eq_none hlookup]
      exact iff_of_true (fun lo hlo => by cases hlo) hfits
    | some lo =>
      obtain ⟨idx, hfind, rfl⟩ := FlatOrderMap.exists_find hlookup
      have hentry := h.find_spec hfind
      have hside := h.sided _ _ hentry
      have hdropped := h.dropOrder hfind
      obtain ⟨-, href⟩ := hm (by rw [hentry]; exact Option.some_ne_none _)
      have hspent := h.removesSpent hdropped hside (sharesAt_update_add hentry (Nat.zero_add _))
      have hexact := hdropped.addsExactly_iff hside m.price m.shares
      have hadded := Resting.Fits.add_iff (hfits.update fun _ _ => Nat.zero_le _)
        (delete_eq_none href) ⟨(b.liveOrders.slots idx).side, m.price, m.shares.toNat⟩
      simp only [replace, hentry, Option.some.injEq, forall_eq']
      rw [← levelArrays_removeLevel]
      exact (and_iff_right hspent).trans (hexact.trans hadded.symm)

/-! ## Runs -/

/-- While the shares fit, the book refines the resting orders. -/
theorem refines_of_fits {messages : List DecodedOrder} (h : Resting.OrderlyRun messages)
    (hfits : ∀ done, done <+: messages → Resting.Fits (Resting.after done)) :
    (empty.applyAll messages).Refines (Resting.after messages) := by
  induction messages using List.reverseRecOn with
  | nil => exact empty_refines
  | append_singleton done m ih =>
    have hbefore := List.prefix_append done [m]
    have ih := ih (h.of_prefix hbefore) fun before hdone => hfits before (hdone.trans hbefore)
    have hlast := hfits (done ++ [m]) List.prefix_rfl
    have hprices := h.prices (done ++ [m]) List.prefix_rfl
    rw [Resting.after_snoc] at hlast hprices
    rw [applyAll_snoc, Resting.after_snoc]
    refine ih.apply (h.orderly done m List.prefix_rfl) fun side hside => ?_
    exact ⟨hprices side hside, hlast side⟩

/-- In an orderly run every addition is exact and only spent levels are removed exactly when at
every point the shares that rest at each side and price fit in 32 bits. -/
theorem totals_kept_iff (messages : List DecodedOrder) (h : Resting.OrderlyRun messages) :
    (∀ done m, done ++ [m] <+: messages → (empty.applyAll done).KeepsTotals m) ↔
      ∀ done, done <+: messages → ∀ side price,
        sharesAt (Resting.after done) side price < 2 ^ 32 := by
  refine (Schedule.forall_prefix_iff (P := fun done => Resting.Fits (Resting.after done)) ?_
    fun done m hdone hfits => ?_).symm
  · intro side price
    exact (sharesAt_empty side price).trans_lt (Nat.two_pow_pos 32)
  · have hbefore := h.of_prefix ((List.prefix_append done [m]).trans hdone)
    rw [Resting.after_snoc]
    exact ((refines_of_fits hbefore hfits).keepsTotals_iff (hfits done List.prefix_rfl)
      (h.orderly done m hdone)).symm

/-! ### Short runs -/

/-- A run of at most 256 messages has no more prices than that. -/
theorem orderlyRun_of_length_le {messages : List DecodedOrder} (hlength : messages.length ≤ maxLevels)
    (horderly : ∀ done m, done ++ [m] <+: messages → (Resting.after done).Orderly m) :
    Resting.OrderlyRun messages := by
  exact ⟨horderly, fun done hdone side _ =>
    (Resting.ncard_liveAt_after_le done side).trans (hdone.length_le.trans hlength)⟩

/-- Two orders share a level, and one of them is filled. -/
def sharedLevel (first : UInt32) : List DecodedOrder :=
  [⟨.add, 1, 0, 100, first, sideBuy, 0⟩, ⟨.add, 2, 0, 100, 1, sideBuy, 0⟩,
    ⟨.execute, 2, 0, 0, 1, 0, 0⟩]

theorem sharedLevel_orderly {first : UInt32} (hfirst : 1 ≤ first) :
    Resting.OrderlyRun (sharedLevel first) := by
  refine orderlyRun_of_length_le (by simp [sharedLevel, maxLevels]) fun done m hdone => ?_
  rcases done with _ | ⟨m₁, _ | ⟨m₂, _ | ⟨m₃, rest⟩⟩⟩
  · obtain ⟨rfl, -⟩ := List.cons_prefix_cons.mp hdone
    exact ⟨Or.inl rfl, hfirst, rfl⟩
  · obtain ⟨rfl, hsecond⟩ := List.cons_prefix_cons.mp hdone
    obtain ⟨rfl, -⟩ := List.cons_prefix_cons.mp hsecond
    exact ⟨Or.inl rfl, by decide, rfl⟩
  · obtain ⟨rfl, hsecond⟩ := List.cons_prefix_cons.mp hdone
    obtain ⟨rfl, hthird⟩ := List.cons_prefix_cons.mp hsecond
    obtain ⟨rfl, -⟩ := List.cons_prefix_cons.mp hthird
    trivial
  · have hlength := hdone.length_le
    simp only [sharedLevel, List.length_append, List.length_cons, List.length_nil] at hlength
    omega

/-- Few shares add up exactly. -/
theorem sharedLevel_totals_kept :
    Resting.OrderlyRun (sharedLevel 60) ∧
      ∀ done m, done ++ [m] <+: sharedLevel 60 → (empty.applyAll done).KeepsTotals m := by
  have horderly : Resting.OrderlyRun (sharedLevel 60) := sharedLevel_orderly (by decide)
  refine ⟨horderly, (totals_kept_iff _ horderly).mpr fun done hdone side price => ?_⟩
  obtain ⟨rest, hrest⟩ := hdone
  have hsum : ((sharedLevel 60).map fun m => m.shares.toNat).sum = 62 := by decide
  rw [← hrest, List.map_append, List.sum_append] at hsum
  have hle := Resting.sharesAt_after_le done side price
  omega

/-- All 32 bits of shares and one more wrap to zero, and the fill of the one takes the level of
the other away. -/
theorem sharedLevel_totals_not_kept :
    Resting.OrderlyRun (sharedLevel 0xffffffff) ∧
      (empty.applyAll ((sharedLevel 0xffffffff).take 2)).bids.levels 0 = ⟨100, 0, 2⟩ ∧
      (empty.applyAll (sharedLevel 0xffffffff)).bidDepth = 0 ∧
      ((empty.applyAll (sharedLevel 0xffffffff)).liveOrders.lookup 1).map LiveOrder.remainingShares =
        some 0xffffffff ∧
      ¬ ∀ done m, done ++ [m] <+: sharedLevel 0xffffffff → (empty.applyAll done).KeepsTotals m := by
  refine ⟨sharedLevel_orderly (by decide), by decide +kernel, by decide +kernel, by decide +kernel,
    fun h => ?_⟩
  have hexact : AddsExactly (empty.applyAll ((sharedLevel 0xffffffff).take 1)).bids 100 1 :=
    h ((sharedLevel 0xffffffff).take 1) _ ((List.take_prefix 2 (sharedLevel 0xffffffff)))
  have hcount : (empty.applyAll ((sharedLevel 0xffffffff).take 1)).bids.count = 1 := by
    decide +kernel
  have hlevel : (empty.applyAll ((sharedLevel 0xffffffff).take 1)).bids.levels 0 =
      ⟨100, 0xffffffff, 1⟩ := by decide +kernel
  exact absurd (hexact _ ⟨0, hcount ▸ Nat.one_pos, hlevel⟩ rfl) (by decide)

end OrderBook

end NanoRing
