import NanoRing.Book.BookRuns
import NanoRing.Book.LevelCalls

/-!
# The order counts of the levels

A level counts its orders, but the helpers that change the count see only a price and a
number of shares. An addition is always one more order; a removal is taken for one order
less, also when it is a partial fill and the order stays. Within the capacity of the book the
counts are therefore true for exactly as long as every fill is a full one.
-/

namespace NanoRing

namespace BookSide

variable {s : BookSide} {descending : Bool} {number number' : UInt32 → ℕ} {price shares : UInt32}

/-- Every listed level counts the number of orders at its price. -/
def Counts (s : BookSide) (number : UInt32 → ℕ) : Prop :=
  ∀ level, s.Has level → level.orderCount.toNat = number level.price

/-- An addition counts one more order at its price. -/
theorem Counts.addToLevels (h : s.Counts number) (hs : s.Sorted descending)
    (hself : number' price = number price + 1) (hother : ∀ p, p ≠ price → number' p = number p)
    (hfits : number' price < 2 ^ 32) (habsent : price ∉ s.prices → number price = 0) :
    (s.addToLevels price shares descending).Counts number' := by
  intro level hlevel
  cases (hs.addToLevels_spec price shares).2 with
  | bumped old hold hprice _ hhas =>
    rcases (hhas level).mp hlevel with rfl | ⟨hlevel, hne⟩
    · change (old.orderCount + 1).toNat = number' price
      rw [UInt32.toNat_add, h old hold, hprice, hself]
      exact Nat.mod_eq_of_lt (hself ▸ hfits)
    · rw [h level hlevel, hother _ hne]
  | inserted hnew _ _ hhas =>
    have hzero : number price = 0 := habsent fun hmem => by
      obtain ⟨old, hold, hprice⟩ := mem_prices.mp hmem
      exact hnew old hold hprice
    rcases (hhas level).mp hlevel with rfl | hlevel
    · change 1 = number' price
      omega
    · rw [h level hlevel, hother _ (hnew level hlevel)]
  | refused hnew _ hsame =>
    rw [hsame] at hlevel
    rw [h level hlevel, hother _ (hnew level hlevel)]

/-- A removal counts one order less at its price. -/
theorem Counts.removeFromLevels (h : s.Counts number) (hs : s.Sorted descending)
    (hself : number' price + 1 = number price) (hother : ∀ p, p ≠ price → number' p = number p) :
    (s.removeFromLevels price shares descending).Counts number' := by
  intro level hlevel
  cases (hs.removeFromLevels_spec price shares).2 with
  | absent hnone hsame =>
    rw [hsame] at hlevel
    rw [h level hlevel, hother _ (hnone level hlevel)]
  | removed old hold hprice _ _ hhas =>
    obtain ⟨hlevel, hne⟩ := (hhas level).mp hlevel
    rw [h level hlevel, hother _ hne]
  | reduced old hold hprice _ _ hhas =>
    rcases (hhas level).mp hlevel with rfl | ⟨hlevel, hne⟩
    · have hcount := h old hold
      rw [hprice] at hcount
      have hone : 1 ≤ old.orderCount := UInt32.le_iff_toNat_le.mpr (by
        change 1 ≤ old.orderCount.toNat
        omega)
      change (old.orderCount - 1).toNat = number' price
      rw [UInt32.toNat_sub_of_le _ _ hone]
      change old.orderCount.toNat - 1 = number' price
      omega
    · rw [h level hlevel, hother _ hne]

/-- A removal that keeps the level leaves its count one short of the orders that were there. -/
theorem Counts.not_removeFromLevels (h : s.Counts number) (hs : s.Sorted descending)
    {old : PriceLevel} (hold : s.Has old) (hprice : old.price = price)
    (hless : shares < old.totalShares) :
    ¬ (s.removeFromLevels price shares descending).Counts number := by
  intro hafter
  cases (hs.removeFromLevels_spec price shares).2 with
  | absent hnone _ => exact hnone old hold hprice
  | removed old' hold' hprice' hcover _ _ =>
    rw [hs.has_unique hold' hold (hprice'.trans hprice.symm)] at hcover
    exact UInt32.not_le.mpr hless hcover
  | reduced old' hold' hprice' _ _ hhas =>
    have hcount := hafter _ ((hhas _).mpr (Or.inl rfl))
    have hbefore := h old' hold'
    have hlt := old'.orderCount.toNat_lt
    rw [hprice', ← hcount, UInt32.toNat_sub] at hbefore
    change old'.orderCount.toNat = (2 ^ 32 - 1 + old'.orderCount.toNat) % 2 ^ 32 at hbefore
    omega

end BookSide

namespace OrderBook

open RestingBook

/-- Every level counts the orders that rest at its side and price, of which there are some; so no
decrement of a count wraps. -/
def CountsTrue (b : OrderBook) (resting : Resting) : Prop :=
  ∀ side, side = sideBuy ∨ side = sideSell → ∀ level, (b.levelArrays.array side).Has level →
    level.orderCount.toNat = ordersAt resting side level.price ∧ 1 ≤ level.orderCount

/-- The Execute, if it is one, fills its order completely. -/
def FillsWhole (resting : Resting) (m : DecodedOrder) : Prop :=
  m.type = .execute → ∀ o, resting m.orderRef = some o → o.remaining ≤ m.shares.toNat

instance (resting : Resting) (m : DecodedOrder) : Decidable (FillsWhole resting m) :=
  match hentry : resting m.orderRef with
  | none => isTrue fun _ o ho => by simp [hentry] at ho
  | some o =>
    decidable_of_iff (m.type = .execute → o.remaining ≤ m.shares.toNat)
      (by simp [FillsWhole, hentry])

variable {b b' : OrderBook} {resting : Resting} {m : DecodedOrder} {ref : UInt64}

/-- Each array reports the totals of its side. -/
theorem Refines.reports (h : b.Refines resting) {side : UInt8}
    (hside : side = sideBuy ∨ side = sideSell) :
    (b.levelArrays.array side).Reports (side == sideBuy) (sharesAt resting side) := by
  rcases hside with rfl | rfl
  · exact h.levels.1
  · exact h.levels.2

/-- In a book that refines its orders the listed levels have orders. -/
theorem Refines.countsTrue_iff (h : b.Refines resting) :
    b.CountsTrue resting ↔ ∀ side, side = sideBuy ∨ side = sideSell →
      (b.levelArrays.array side).Counts (ordersAt resting side) := by
  refine ⟨fun hcounts side hside level hlevel => (hcounts side hside level hlevel).1, ?_⟩
  intro hcounts side hside level hlevel
  have hcount := hcounts side hside level hlevel
  have hlive := (sharesAt_pos_iff h.positive side level.price).mp ((h.reports hside).level level hlevel).2
  have hpos := (ordersAt_pos_iff resting side level.price).mpr hlive
  refine ⟨hcount, UInt32.le_iff_toNat_le.mpr ?_⟩
  change 1 ≤ level.orderCount.toNat
  omega

/-- No orders rest at a price that is not listed. -/
theorem Refines.ordersAt_eq_zero (h : b.Refines resting) {side : UInt8}
    (hside : side = sideBuy ∨ side = sideSell) {price : UInt32}
    (habsent : price ∉ (b.levelArrays.array side).prices) : ordersAt resting side price = 0 := by
  by_contra hne
  have hlive := (ordersAt_pos_iff resting side price).mp (Nat.pos_of_ne_zero hne)
  exact habsent (((h.reports hside).mem_prices_iff price).mpr
    ((sharesAt_pos_iff h.positive side price).mpr hlive))

/-- Of the two side bytes each selects an array of its own. -/
theorem known_side_eq_iff {side side' : UInt8} (hside : side = sideBuy ∨ side = sideSell)
    (hside' : side' = sideBuy ∨ side' = sideSell) :
    (side' == sideBuy) = (side == sideBuy) ↔ side' = side := by
  rcases hside with rfl | rfl <;> rcases hside' with rfl | rfl <;> decide

/-- A new array keeps the counts when it counts its own side and no other side changes. -/
theorem counts_setArray {a : LevelArrays} {number number' : UInt8 → UInt32 → ℕ} {side : UInt8}
    {s : BookSide} (hside : side = sideBuy ∨ side = sideSell)
    (hcounts : ∀ side', side' = sideBuy ∨ side' = sideSell → (a.array side').Counts (number side'))
    (hown : s.Counts (number' side)) (hother : ∀ side', side' ≠ side → number' side' = number side') :
    ∀ side', side' = sideBuy ∨ side' = sideSell →
      ((a.setArray side s).array side').Counts (number' side') := by
  intro side' hside'
  rw [LevelArrays.array_setArray]
  simp only [known_side_eq_iff hside hside']
  split
  · rename_i heq
    subst heq
    exact hown
  · rename_i hne
    rw [hother side' hne]
    exact hcounts side' hside'

/-- An added order is counted. -/
theorem Refines.counts_add (h : b.Refines resting) (hcounts : b.CountsTrue resting)
    {side : UInt8} {price shares : UInt32} (habsent : resting ref = none)
    (hside : side = sideBuy ∨ side = sideSell)
    (hafter : b'.Refines (add resting ref ⟨side, price, shares.toNat⟩))
    (hcap : Resting.WithinCapacity (add resting ref ⟨side, price, shares.toNat⟩))
    (harrays : b'.levelArrays = b.levelArrays.call (.add side price shares)) :
    b'.CountsTrue (add resting ref ⟨side, price, shares.toNat⟩) := by
  rw [h.countsTrue_iff] at hcounts
  rw [hafter.countsTrue_iff]
  have hadd := ordersAt_add habsent ⟨side, price, shares.toNat⟩
  have hself : ordersAt (add resting ref ⟨side, price, shares.toNat⟩) side price =
      ordersAt resting side price + 1 := by
    rw [hadd, if_pos ⟨rfl, rfl⟩]
  have hother (side' : UInt8) (p : UInt32) (hne : ¬ (side = side' ∧ price = p)) :
      ordersAt (add resting ref ⟨side, price, shares.toNat⟩) side' p = ordersAt resting side' p := by
    rw [hadd, if_neg hne, Nat.add_zero]
  have hfits : ordersAt (add resting ref ⟨side, price, shares.toNat⟩) side price < 2 ^ 32 :=
    (ordersAt_le_sharesAt hafter.positive side price).trans_lt ((hcap side hside).2 price)
  rw [harrays, LevelArrays.call]
  refine counts_setArray hside hcounts ?_ fun side' hne => ?_
  · exact (hcounts side hside).addToLevels (h.reports hside).sorted hself
      (fun p hp => hother side p fun h => hp h.2.symm) hfits (h.ordersAt_eq_zero hside)
  · funext p
    exact hother side' p fun h => hne h.1.symm

/-- A dropped order is counted no longer. -/
theorem Refines.counts_drop (h : b.Refines resting) (hcounts : b.CountsTrue resting)
    {o : RestingOrder UInt8 UInt32} (hentry : resting ref = some o) {shares : UInt32}
    (hafter : b'.Refines (delete resting ref))
    (harrays : b'.levelArrays = b.levelArrays.call (.remove o.side o.price shares)) :
    b'.CountsTrue (delete resting ref) := by
  rw [h.countsTrue_iff] at hcounts
  rw [hafter.countsTrue_iff]
  have hside := h.sided ref o hentry
  have hdelete := ordersAt_delete hentry
  have hself : ordersAt (delete resting ref) o.side o.price + 1 = ordersAt resting o.side o.price := by
    rw [← hdelete, if_pos ⟨rfl, rfl⟩]
  have hother (side' : UInt8) (p : UInt32) (hne : ¬ (o.side = side' ∧ o.price = p)) :
      ordersAt (delete resting ref) side' p = ordersAt resting side' p := by
    rw [← hdelete, if_neg hne, Nat.add_zero]
  rw [harrays, LevelArrays.call]
  refine counts_setArray hside hcounts ?_ fun side' hne => ?_
  · exact (hcounts o.side hside).removeFromLevels (h.reports hside).sorted hself
      fun p hp => hother o.side p fun h => hp h.2.symm
  · funext p
    exact hother side' p fun h => hne h.1.symm

/-- After a partial fill the level of the order counts one order too few. -/
theorem Refines.not_counts_partial (h : b.Refines resting) (hcounts : b.CountsTrue resting)
    {o : RestingOrder UInt8 UInt32} (hentry : resting ref = some o) {shares : UInt32}
    (hless : shares.toNat < o.remaining) {left : ℕ}
    (hafter : b'.Refines (Function.update resting ref (some { o with remaining := left })))
    (harrays : b'.levelArrays = b.levelArrays.call (.remove o.side o.price shares)) :
    ¬ b'.CountsTrue (Function.update resting ref (some { o with remaining := left })) := by
  have hside := h.sided ref o hentry
  rw [h.countsTrue_iff] at hcounts
  rw [hafter.countsTrue_iff]
  intro hcounts'
  have hsame : ordersAt (Function.update resting ref (some { o with remaining := left })) o.side =
      ordersAt resting o.side := by
    funext p
    exact ordersAt_update_remaining hentry left o.side p
  have hle := contribution_le_sharesAt resting ref o.side o.price
  rw [hentry, contribution_self] at hle
  obtain ⟨old, hold, hprice⟩ := (h.reports hside).complete o.price (by omega)
  have htotal := ((h.reports hside).level old hold).1
  have hcover : shares < old.totalShares := UInt32.lt_iff_toNat_lt.mpr (by
    rw [htotal, hprice]
    omega)
  have hbad := hcounts' o.side hside
  rw [harrays, LevelArrays.call, LevelArrays.array_setArray_self, hsame] at hbad
  exact (hcounts o.side hside).not_removeFromLevels (h.reports hside).sorted hold hprice hcover hbad

/-- The counts are those of the level arrays. -/
theorem CountsTrue.congr (h : b.CountsTrue resting) (harrays : b'.levelArrays = b.levelArrays) :
    b'.CountsTrue resting := by
  intro side hside
  rw [harrays]
  exact h side hside

/-- Where a lookup fails no order rests. -/
theorem Refines.resting_eq_none (h : b.Refines resting) (hlookup : b.liveOrders.lookup ref = none) :
    resting ref = none := by
  rw [← h.agrees ref, hlookup, Option.map_none]

/-- One message keeps the counts true exactly when it does not fill an order in part. -/
theorem Refines.countsTrue_apply_iff (h : b.Refines resting) (hm : Resting.Admissible resting m)
    (hcap : Resting.WithinCapacity (Resting.step resting m)) (hcounts : b.CountsTrue resting) :
    (b.apply m).CountsTrue (Resting.step resting m) ↔ FillsWhole resting m := by
  have hafter := h.apply hm.orderly hcap
  have harrays := b.levelArrays_apply m
  unfold levelCalls at harrays
  unfold Resting.step at hafter hcap ⊢
  unfold Resting.Admissible at hm
  cases htype : m.type with
  | add =>
    simp only [htype] at harrays hafter hcap hm ⊢
    refine iff_of_true ?_ fun h => by simp [htype] at h
    exact h.counts_add hcounts hm.2.2.2 hm.1 hafter hcap harrays
  | execute =>
    simp only [htype] at harrays hafter ⊢
    cases hlookup : b.liveOrders.lookup m.orderRef with
    | none =>
      have habsent := h.resting_eq_none hlookup
      simp only [hlookup] at harrays
      rw [execute, habsent]
      exact iff_of_true (hcounts.congr harrays) fun _ o ho => by rw [habsent] at ho; cases ho
    | some lo =>
      obtain ⟨idx, hfind, rfl⟩ := FlatOrderMap.exists_find hlookup
      have hentry := h.find_spec hfind
      simp only [hlookup] at harrays
      by_cases hfull : (b.liveOrders.slots idx).remainingShares.toNat ≤ m.shares.toNat
      · rw [execute_eq_delete hentry hfull] at hafter ⊢
        refine iff_of_true (h.counts_drop hcounts hentry hafter harrays) fun _ o ho => ?_
        rw [hentry] at ho
        cases ho
        exact hfull
      · have hless := Nat.lt_of_not_le hfull
        rw [execute_of_lt hentry hless] at hafter ⊢
        refine iff_of_false ?_ fun hwhole => hfull (hwhole htype _ hentry)
        have hexec : ((b.liveOrders.slots idx).executed m.shares).toNat = m.shares.toNat := by
          rw [LiveOrder.executed, if_neg (UInt32.not_lt.mpr (UInt32.le_iff_toNat_le.mpr hless.le))]
        exact h.not_counts_partial hcounts hentry (hexec ▸ hless) hafter harrays
  | delete =>
    simp only [htype] at harrays hafter ⊢
    refine iff_of_true ?_ fun h => by simp [htype] at h
    cases hlookup : b.liveOrders.lookup m.orderRef with
    | none =>
      simp only [hlookup] at harrays
      rw [delete_of_absent (h.resting_eq_none hlookup)]
      exact hcounts.congr harrays
    | some lo =>
      obtain ⟨idx, hfind, rfl⟩ := FlatOrderMap.exists_find hlookup
      simp only [hlookup] at harrays
      exact h.counts_drop hcounts (h.find_spec hfind) hafter harrays
  | replace =>
    simp only [htype] at harrays hafter hcap hm ⊢
    refine iff_of_true ?_ fun h => by simp [htype] at h
    cases hlookup : b.liveOrders.lookup m.orderRef with
    | none =>
      simp only [hlookup] at harrays
      rw [replace, h.resting_eq_none hlookup]
      exact hcounts.congr harrays
    | some lo =>
      obtain ⟨idx, hfind, rfl⟩ := FlatOrderMap.exists_find hlookup
      have hentry := h.find_spec hfind
      obtain ⟨-, -, href⟩ := hm (by rw [hentry]; exact Option.some_ne_none _)
      simp only [hlookup, LevelArrays.callAll, List.foldl_cons, List.foldl_nil] at harrays
      simp only [replace, hentry] at hafter hcap ⊢
      -- between the two calls the old order is gone from table and level
      have hdropped := h.dropOrder hfind
      have hmid := h.counts_drop hcounts hentry hdropped (b.levelArrays_removeLevel _ _ _)
      exact hdropped.counts_add hmid (delete_eq_none href) (h.sided _ _ hentry) hafter hcap
        (harrays.trans (congrArg (fun a => LevelArrays.call a _)
          (b.levelArrays_removeLevel _ _ _).symm))

/-- The counts of the empty book are true. -/
theorem empty_countsTrue : empty.CountsTrue fun _ => none := by
  intro side _ level hlevel
  obtain ⟨i, hi, -⟩ := hlevel
  unfold LevelArrays.array at hi
  split at hi <;> exact absurd hi (Nat.not_lt_zero i)

/-- Throughout a feasible list of messages the order counts of all levels are true exactly when
no Execute of the list fills an order in part. -/
theorem order_counts_true_iff (messages : List DecodedOrder)
    (hfeasible : Resting.Feasible (fun _ => none) messages) :
    (∀ done, done <+: messages → (empty.applyAll done).CountsTrue (Resting.after done)) ↔
      ∀ done m, done ++ [m] <+: messages → FillsWhole (Resting.after done) m := by
  refine Schedule.forall_prefix_iff empty_countsTrue fun done m hdone hcounts => ?_
  obtain ⟨rest, rfl⟩ := hdone
  obtain ⟨hdone, hm, hcap, -⟩ := (Resting.feasible_append _ done [m]).mp
    ((Resting.feasible_append _ (done ++ [m]) rest).mp hfeasible).1
  rw [applyAll_snoc, Resting.after, List.foldl_concat]
  exact (empty_refines.applyAll hdone).countsTrue_apply_iff hm hcap (hcounts done List.prefix_rfl)

/-- Two bids share a level and one has another, under an offer; one bid of the shared level is
filled completely. -/
def wholeFill : List DecodedOrder :=
  [⟨.add, 7, 0, 50, 100, sideBuy, 0⟩, ⟨.add, 8, 0, 50, 60, sideBuy, 0⟩,
    ⟨.add, 9, 0, 49, 10, sideBuy, 0⟩, ⟨.add, 10, 0, 55, 30, sideSell, 0⟩,
    ⟨.execute, 7, 0, 0, 100, 0, 0⟩]

/-- The fill takes all that remains, so the counts stay true. -/
theorem wholeFill_counts_true :
    Resting.Feasible (fun _ => none) wholeFill ∧
      ∀ done, done <+: wholeFill → (empty.applyAll done).CountsTrue (Resting.after done) := by
  have hfeasible : Resting.Feasible (fun _ => none) wholeFill :=
    Resting.feasible_of_small (by decide) (by decide)
      (Schedule.forall_snoc_prefix_iff.mpr (by decide))
  exact ⟨hfeasible, (order_counts_true_iff wholeFill hfeasible).mpr
    (Schedule.forall_snoc_prefix_iff.mpr (by decide))⟩

/-- One order is added and filled in part. -/
def partialFill : List DecodedOrder :=
  [⟨.add, 7, 0, 50, 100, sideBuy, 0⟩, ⟨.execute, 7, 0, 0, 40, 0, 0⟩]

/-- The order still rests, and its level counts none. -/
theorem partialFill_counts_false :
    Resting.Feasible (fun _ => none) partialFill ∧
      (empty.applyAll partialFill).bids.levels 0 = ⟨50, 60, 0⟩ ∧
      ordersAt (Resting.after partialFill) sideBuy 50 = 1 ∧
      ¬ ∀ done, done <+: partialFill →
        (empty.applyAll done).CountsTrue (Resting.after done) := by
  have hfeasible : Resting.Feasible (fun _ => none) partialFill :=
    Resting.feasible_of_small (by decide) (by decide)
      (Schedule.forall_snoc_prefix_iff.mpr (by decide))
  have hlevel : (empty.applyAll partialFill).bids.levels 0 = ⟨50, 60, 0⟩ := by decide +kernel
  have hcount : (empty.applyAll partialFill).bids.count = 1 := by decide +kernel
  refine ⟨hfeasible, hlevel, ?_, fun h => ?_⟩
  · have hset : {ref | ∃ o, Resting.after partialFill ref = some o ∧ o.side = sideBuy ∧
        o.price = 50} = {7} := by
      ext ref
      by_cases href : ref = 7 <;>
        simp [href, Resting.after, partialFill, Resting.step, add, execute, Function.update]
    rw [ordersAt, hset, Set.ncard_singleton]
  · have hhas : ((empty.applyAll partialFill).levelArrays.array sideBuy).Has ⟨50, 60, 0⟩ :=
      ⟨0, hcount ▸ Nat.one_pos, hlevel⟩
    exact absurd (h partialFill List.prefix_rfl sideBuy (Or.inl rfl) _ hhas).2 (by decide)

end OrderBook

end NanoRing
