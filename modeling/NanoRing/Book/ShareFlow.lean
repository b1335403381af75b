import Mathlib.Algebra.BigOperators.Finprod
import NanoRing.Book.Capacity
import NanoRing.Book.QuotedBook
import NanoRing.Book.ShareTotals

/-!
# Where the shares go

Shares enter a side of the book with an Add or a Replace, and leave it executed, or cancelled by a
Delete or a Replace. Within the capacity of the book no share is lost or made up: what the levels of
a side quote is what has entered it less what has left it. The flows are read off the handlers: an
execution takes the clamped shares, a cancellation what the order has left.
-/

namespace NanoRing

namespace RestingBook

section Side

variable {Ref Side Price : Type*} [DecidableEq Side]

/-- What an entry contributes to a side. -/
def stake (entry : Option (RestingOrder Side Price)) (side : Side) : ℕ :=
  entry.elim 0 fun o => if o.side = side then o.remaining else 0

@[simp] theorem stake_none (side : Side) :
    stake (none : Option (RestingOrder Side Price)) side = 0 := rfl

theorem stake_some (o : RestingOrder Side Price) (side : Side) :
    stake (some o) side = if o.side = side then o.remaining else 0 := rfl

variable [DecidableEq Price]

/-- An entry contributes to its side what it contributes to the prices of the side. -/
theorem sum_contribution [Fintype Price] (entry : Option (RestingOrder Side Price)) (side : Side) :
    ∑ price, contribution entry side price = stake entry side := by
  cases entry with
  | none => simp [stake]
  | some o =>
    simp only [contribution, stake, Option.elim_some]
    by_cases hside : o.side = side
    · simp [hside]
    · simp [hside]

variable [Fintype Ref]

/-- The shares resting on a side. -/
noncomputable def sharesOn (b : RestingBook Ref Side Price) (side : Side) : ℕ :=
  ∑ᶠ ref, stake (b ref) side

/-- The shares of a side are those at its prices. -/
theorem sum_sharesAt [Fintype Price] (b : RestingBook Ref Side Price) (side : Side) :
    ∑ price, sharesAt b side price = sharesOn b side := by
  simp only [sharesAt, sharesOn]
  rw [finsum_eq_sum_of_fintype, Finset.sum_comm]
  exact Finset.sum_congr rfl fun ref _ => sum_contribution (b ref) side

/-- A change at one reference changes a side by the difference of the contributions. -/
theorem sharesOn_update [DecidableEq Ref] [Fintype Price] (b : RestingBook Ref Side Price) (ref : Ref)
    (entry : Option (RestingOrder Side Price)) (side : Side) :
    sharesOn (Function.update b ref entry) side + stake (b ref) side =
      sharesOn b side + stake entry side := by
  rw [← sum_sharesAt, ← sum_sharesAt, ← sum_contribution, ← sum_contribution,
    ← Finset.sum_add_distrib, ← Finset.sum_add_distrib]
  exact Finset.sum_congr rfl fun price _ => sharesAt_update b ref entry side price

variable [DecidableEq Ref] [Fintype Price] {b : RestingBook Ref Side Price} {ref : Ref}
  {o : RestingOrder Side Price}

theorem sharesOn_add (habsent : b ref = none) (o : RestingOrder Side Price) (side : Side) :
    sharesOn (add b ref o) side = sharesOn b side + stake (some o) side := by
  have h := sharesOn_update b ref (some o) side
  rwa [habsent, stake_none, Nat.add_zero] at h

theorem sharesOn_delete (hentry : b ref = some o) (side : Side) :
    sharesOn (delete b ref) side + stake (some o) side = sharesOn b side := by
  have h := sharesOn_update b ref none side
  rwa [hentry, stake_none, Nat.add_zero] at h

/-- An execution takes what it fills. -/
theorem sharesOn_execute (hentry : b ref = some o) (shares : ℕ) (side : Side) :
    sharesOn (execute b ref shares) side + (if o.side = side then min shares o.remaining else 0) =
      sharesOn b side := by
  by_cases hfull : o.remaining ≤ shares
  · rw [execute_eq_delete hentry hfull, min_eq_right hfull, ← stake_some]
    exact sharesOn_delete hentry side
  · have hless := Nat.lt_of_not_le hfull
    have h := sharesOn_update b ref (some { o with remaining := o.remaining - shares }) side
    rw [hentry, stake_some, stake_some] at h
    rw [execute_of_lt hentry hless, min_eq_left hless.le]
    by_cases hside : o.side = side
    · rw [if_pos hside, if_pos hside] at h
      rw [if_pos hside]
      dsimp only at h
      omega
    · rw [if_neg hside, if_neg hside] at h
      rwa [if_neg hside]

/-- A replacement takes what the order has left and adds the new shares. -/
theorem sharesOn_replace (hentry : b ref = some o) {newRef : Ref}
    (hnew : b newRef = none ∨ newRef = ref) (price : Price) (shares : ℕ) (side : Side) :
    sharesOn (replace b ref newRef price shares) side + stake (some o) side =
      sharesOn b side + if o.side = side then shares else 0 := by
  have hadd := sharesOn_add (delete_eq_none hnew) (⟨o.side, price, shares⟩ : RestingOrder Side Price) side
  have hdelete := sharesOn_delete hentry side
  rw [stake_some] at hadd
  simp only [replace, hentry]
  rw [hadd]
  dsimp only
  omega

end Side

end RestingBook

namespace BookSide

/-- A side quotes the totals that it reports. -/
theorem Reports.sum_quotes {s : BookSide} {descending : Bool} {total : UInt32 → ℕ}
    (h : s.Reports descending total) :
    (s.quotes.map fun quote => quote.2.toNat).sum = ∑ price, total price := by
  have hquoted : (s.quotes.map fun quote => quote.2.toNat) = s.prices.map total := by
    rw [quotes, prices, List.map_map, List.map_map]
    exact List.map_congr_left fun i hi =>
      (h.level (s.levels i) ⟨i, List.mem_range.mp hi, rfl⟩).1
  have hnodup : s.prices.Nodup := by
    refine h.sorted.pairwise_prices.imp fun hlt hsame => ?_
    exact irrefl_of (Before descending) _ (hsame ▸ hlt)
  rw [hquoted, ← List.sum_toFinset total hnodup]
  refine Finset.sum_subset (Finset.subset_univ _) fun price _ hprice => ?_
  rw [List.mem_toFinset, h.mem_prices_iff] at hprice
  exact Nat.eq_zero_of_not_pos hprice

end BookSide

namespace OrderBook

open RestingBook

/-- The shares that a message enters on a side. -/
def sharesEntered (side : UInt8) (b : OrderBook) (m : DecodedOrder) : ℕ :=
  match m.type with
  | .add => if m.side = side then m.shares.toNat else 0
  | .replace =>
    match b.liveOrders.lookup m.orderRef with
    | some lo => if lo.side = side then m.shares.toNat else 0
    | none => 0
  | .execute => 0
  | .delete => 0

/-- The shares of a side that a message executes. -/
def sharesExecuted (side : UInt8) (b : OrderBook) (m : DecodedOrder) : ℕ :=
  match m.type with
  | .execute =>
    match b.liveOrders.lookup m.orderRef with
    | some lo => if lo.side = side then (lo.executed m.shares).toNat else 0
    | none => 0
  | .add => 0
  | .delete => 0
  | .replace => 0

/-- The shares of a side that a message cancels. -/
def sharesCancelled (side : UInt8) (b : OrderBook) (m : DecodedOrder) : ℕ :=
  match m.type with
  | .delete | .replace =>
    match b.liveOrders.lookup m.orderRef with
    | some lo => if lo.side = side then lo.remainingShares.toNat else 0
    | none => 0
  | .add => 0
  | .execute => 0

variable {b : OrderBook} {resting : Resting} {m : DecodedOrder}

theorem Refines.lookup_none (h : b.Refines resting) {ref : UInt64}
    (hlookup : b.liveOrders.lookup ref = none) : resting ref = none := by
  rw [← h.agrees, hlookup]
  rfl

theorem Refines.lookup_some (h : b.Refines resting) {ref : UInt64} {lo : LiveOrder}
    (hlookup : b.liveOrders.lookup ref = some lo) : resting ref = some lo.toResting := by
  rw [← h.agrees, hlookup]
  rfl

theorem stake_toResting (lo : LiveOrder) (side : UInt8) :
    stake (some lo.toResting) side = if lo.side = side then lo.remainingShares.toNat else 0 := rfl

/-- One message balances: what is there afterwards and what has left is what was there before and
what has entered. -/
theorem Refines.balance (h : b.Refines resting) (hm : Resting.Orderly resting m) (side : UInt8) :
    sharesOn (resting.step m) side + sharesExecuted side b m + sharesCancelled side b m =
      sharesOn resting side + sharesEntered side b m := by
  unfold Resting.Orderly at hm
  unfold Resting.step sharesExecuted sharesCancelled sharesEntered
  cases htype : m.type with
  | add =>
    rw [htype] at hm
    simp only [sharesOn_add hm.2.2, stake_some, Nat.add_zero]
  | execute =>
    cases hlookup : b.liveOrders.lookup m.orderRef with
    | none => simp only [execute, h.lookup_none hlookup]
    | some lo =>
      have hexecute := sharesOn_execute (h.lookup_some hlookup) m.shares.toNat side
      simp only [toNat_executed, Nat.add_zero]
      exact hexecute
  | delete =>
    cases hlookup : b.liveOrders.lookup m.orderRef with
    | none => simp only [delete_of_absent (h.lookup_none hlookup)]
    | some lo =>
      have hdelete := sharesOn_delete (h.lookup_some hlookup) side
      simp only [Nat.add_zero]
      rwa [stake_toResting] at hdelete
  | replace =>
    rw [htype] at hm
    cases hlookup : b.liveOrders.lookup m.orderRef with
    | none => simp only [replace, h.lookup_none hlookup]
    | some lo =>
      have hlive := h.lookup_some hlookup
      have href := (hm (by rw [hlive]; exact Option.some_ne_none _)).2
      have hreplace := sharesOn_replace hlive href m.price m.shares.toNat side
      simp only [Nat.add_zero]
      rwa [stake_toResting] at hreplace

/-! ## Over a history -/

/-- The shares of a side that rest or have left are those that have entered. -/
theorem sharesOn_of_feasible {messages : List DecodedOrder}
    (hfeasible : Resting.Feasible (fun _ => none) messages) (side : UInt8) :
    sharesOn (Resting.after messages) side + empty.sumAlong (sharesExecuted side) messages +
      empty.sumAlong (sharesCancelled side) messages =
        empty.sumAlong (sharesEntered side) messages := by
  induction messages using List.reverseRecOn with
  | nil =>
    have hnone : sharesOn (Resting.after []) side = 0 := finsum_zero
    rw [hnone]
    rfl
  | append_singleton messages m ih =>
    obtain ⟨hbefore, hm, -, -⟩ := (Resting.feasible_append _ messages [m]).mp hfeasible
    have hbalance := (feasible_quotes hbefore).1.balance hm.orderly side
    have hsofar := ih hbefore
    rw [Resting.after_snoc, sumAlong_snoc, sumAlong_snoc, sumAlong_snoc]
    omega

/-- The shares that the levels of a side quote. -/
def quotedShares (b : OrderBook) (side : UInt8) : ℕ :=
  ((b.levelArrays.array side).quotes.map fun quote => quote.2.toNat).sum

theorem Refines.quotedShares_eq (h : b.Refines resting) {side : UInt8}
    (hside : side = sideBuy ∨ side = sideSell) : b.quotedShares side = sharesOn resting side := by
  rw [quotedShares, (h.reports_array hside).sum_quotes, sum_sharesAt]

/-- No share is lost or made up: over any history within the capacity of the book, what the levels of
a side quote, what was executed there and what was cancelled there add up to what has entered. -/
theorem shares_conserved (messages : List DecodedOrder)
    (hfeasible : Resting.Feasible (fun _ => none) messages) (side : UInt8)
    (hside : side = sideBuy ∨ side = sideSell) :
    (empty.applyAll messages).quotedShares side + empty.sumAlong (sharesExecuted side) messages +
      empty.sumAlong (sharesCancelled side) messages =
        empty.sumAlong (sharesEntered side) messages := by
  rw [(feasible_quotes hfeasible).1.quotedShares_eq hside]
  exact sharesOn_of_feasible hfeasible side

/-- Of the 50 shares bid 20 are executed and 30 quoted. -/
theorem partlyFilled_conserved :
    empty.sumAlong (sharesEntered sideBuy) partlyFilled = 50 ∧
    (empty.applyAll partlyFilled).quotedShares sideBuy +
      empty.sumAlong (sharesExecuted sideBuy) partlyFilled +
      empty.sumAlong (sharesCancelled sideBuy) partlyFilled = 50 :=
  have hentered : empty.sumAlong (sharesEntered sideBuy) partlyFilled = 50 := rfl
  ⟨hentered, (shares_conserved partlyFilled partlyFilled_feasible sideBuy (Or.inl rfl)).trans hentered⟩

end OrderBook

end NanoRing
