import NanoRing.Book.BookRuns
import NanoRing.Book.TopOfBook

/-!
# What a book quotes

Within its capacity a book quotes what rests in it: the best bid is the highest price at which a buy
order rests, the best ask the lowest at which a sell order does, and each side lists its live prices
with the shares resting there. So the quotes do not depend on how the orders came to rest: two
histories that leave the same resting orders leave the same quotes, whatever was executed, deleted
or replaced in between. Only the counters of orders in a level may differ.
-/

namespace NanoRing

namespace BookSide

/-- The prices of a side with their share totals, from the best price on. -/
def quotes (s : BookSide) : List (UInt32 × UInt32) :=
  (List.range s.count).map fun i => ((s.levels i).price, (s.levels i).totalShares)

/-- The best price is the first quoted one. -/
theorem top_eq_quotes (s : BookSide) : s.top = (s.quotes.head?.map Prod.fst).getD 0 := by
  unfold top quotes
  cases s.count with
  | zero => rfl
  | succ n => simp [List.range_succ_eq_map]

variable {s s' : BookSide} {descending : Bool} {total : UInt32 → ℕ}

/-- A side that reports totals quotes them at its prices. -/
theorem Reports.quotes_of_prices (h : s.Reports descending total) :
    s.quotes = s.prices.map fun price => (price, UInt32.ofNat (total price)) := by
  rw [quotes, prices, List.map_map]
  refine List.map_congr_left fun i hi => ?_
  have hlevel := (h.level (s.levels i) ⟨i, List.mem_range.mp hi, rfl⟩).1
  rw [Function.comp_apply, ← hlevel, UInt32.ofNat_toNat]

/-- Two sides that report the same totals quote alike. -/
theorem Reports.quotes_eq (h : s.Reports descending total) (h' : s'.Reports descending total) :
    s.quotes = s'.quotes := by
  have hprices : s.prices = s'.prices := by
    refine List.Pairwise.eq_of_mem_iff h.sorted.pairwise_prices h'.sorted.pairwise_prices fun p => ?_
    rw [h.mem_prices_iff, h'.mem_prices_iff]
  rw [h.quotes_of_prices, h'.quotes_of_prices, hprices]

end BookSide

namespace OrderBook

open RestingBook BookSide

variable {b : OrderBook} {resting : Resting} {m : DecodedOrder}

/-! ## The cached prices stay right -/

/-- Orders rest at a price. -/
def Priced (resting : Resting) : Prop := ∀ ref o, resting ref = some o → 1 ≤ o.price

theorem Priced.ne_zero (h : Priced resting) {side : UInt8} {price : UInt32}
    (hlive : LiveAt resting side price) : price ≠ 0 := by
  obtain ⟨ref, o, ho, -, rfl⟩ := hlive
  intro hzero
  have hone := h ref o ho
  rw [hzero] at hone
  exact absurd hone (by decide)

/-- The array of a side reports the totals of that side. -/
theorem Refines.reports_array (h : b.Refines resting) {side : UInt8}
    (hside : side = sideBuy ∨ side = sideSell) :
    (b.levelArrays.array side).Reports (side == sideBuy) (sharesAt resting side) := by
  rcases hside with rfl | rfl
  · exact h.levels.1
  · exact h.levels.2

/-- A message within capacity is not refused a level. -/
theorem Refines.not_refuses (h : b.Refines resting) (hadd : m.type = .add)
    (hm : Resting.Admissible resting m) (hcap : Resting.WithinCapacity (resting.step m)) :
    ¬ (b.levelArrays.array m.side).Refuses m.price := by
  unfold Resting.Admissible at hm
  unfold Resting.step at hcap
  rw [hadd] at hm hcap
  obtain ⟨hside, -, hshares, habsent⟩ := hm
  have hreports := h.reports_array hside
  have hpos : 0 < m.shares.toNat := UInt32.le_iff_toNat_le.mp hshares
  rintro ⟨hfull, hnew⟩
  rcases room_of_withinCapacity ⟨m.side, m.price, m.shares.toNat⟩ h.positive hreports habsent hpos
      (hcap m.side hside).1 with hlive | hroom
  · exact hnew ((hreports.mem_prices_iff m.price).mpr hlive)
  · exact absurd hroom (Nat.not_lt.mpr hfull)

/-- A fill that empties a level takes all that is left of its order. -/
theorem Refines.fillKeepsTop (h : b.Refines resting) {lo : LiveOrder}
    (hlookup : b.liveOrders.lookup m.orderRef = some lo) {shares : UInt32}
    (hle : shares ≤ lo.remainingShares) : b.FillKeepsTop lo shares := by
  have hresting : resting m.orderRef = some lo.toResting := by
    rw [← h.agrees, hlookup]
    rfl
  have hside : lo.side = sideBuy ∨ lo.side = sideSell := h.sided _ _ hresting
  intro _ hcovers
  refine Or.inl ⟨?_, hside⟩
  obtain ⟨level, hlevel, hprice, htotal⟩ := hcovers
  have hreported := ((h.reports_array hside).level level hlevel).1
  have hown := contribution_le_sharesAt resting m.orderRef lo.side lo.price
  rw [hresting] at hown
  have hcontribution : contribution (some lo.toResting) lo.side lo.price = lo.remainingShares.toNat :=
    contribution_self lo.toResting
  rw [hcontribution, ← hprice, ← hreported] at hown
  exact UInt32.le_antisymm hle (UInt32.le_trans (UInt32.le_iff_toNat_le.mpr hown) htotal)

/-- A feasible message keeps the cached prices right. -/
theorem Refines.keepsTop (h : b.Refines resting) (hpriced : Priced resting) (htop : b.Topped)
    (hm : Resting.Admissible resting m) (hcap : Resting.WithinCapacity (resting.step m)) :
    b.KeepsTop m := by
  unfold KeepsTop
  cases htype : m.type with
  | add =>
    have hroom := h.not_refuses htype hm hcap
    refine ⟨fun hrefuses => absurd hrefuses hroom, fun _ hcount hzero => ?_⟩
    -- a listed ask has a price, so the cached one is not zero
    unfold Resting.Admissible at hm
    rw [htype] at hm
    have hreports := h.reports_array hm.1
    have hlisted := top_mem_prices hcount
    rw [← topped_iff.mp htop m.side, hzero, hreports.mem_prices_iff,
      sharesAt_pos_iff h.positive] at hlisted
    exact absurd rfl (hpriced.ne_zero hlisted)
  | execute =>
    intro lo hlookup
    refine h.fillKeepsTop hlookup ?_
    unfold LiveOrder.executed
    split
    case isTrue => exact UInt32.le_refl _
    case isFalse hle => exact UInt32.not_lt.mp hle
  | delete => exact fun lo hlookup => h.fillKeepsTop hlookup (UInt32.le_refl _)
  | replace => trivial

/-- Only orders with a price come to rest. -/
theorem Priced.update (h : Priced resting) {ref : UInt64} {entry : Option (RestingOrder UInt8 UInt32)}
    (hentry : ∀ o, entry = some o → 1 ≤ o.price) : Priced (Function.update resting ref entry) := by
  intro ref' o ho
  by_cases href : ref' = ref
  · rw [href, Function.update_self] at ho
    exact hentry o ho
  · rw [Function.update_of_ne href] at ho
    exact h ref' o ho

theorem Priced.step (h : Priced resting) (hm : Resting.Admissible resting m) :
    Priced (resting.step m) := by
  unfold Resting.Admissible at hm
  unfold Resting.step
  cases htype : m.type with
  | add =>
    rw [htype] at hm
    refine h.update fun o ho => ?_
    rw [← Option.some.inj ho]
    exact hm.2.1
  | execute =>
    cases hlive : resting m.orderRef with
    | none =>
      simp only [execute, hlive]
      exact h
    | some o =>
      simp only [execute, hlive]
      refine h.update fun o' ho' => ?_
      split at ho'
      case isTrue => contradiction
      case isFalse =>
        rw [← Option.some.inj ho']
        exact h m.orderRef o hlive
  | delete => exact h.update fun o ho => by contradiction
  | replace =>
    rw [htype] at hm
    cases hlive : resting m.orderRef with
    | none =>
      simp only [replace, hlive]
      exact h
    | some o =>
      have hprice := (hm (by rw [hlive]; exact Option.some_ne_none o)).1
      have hdeleted : Priced (delete resting m.orderRef) := h.update fun o ho => by contradiction
      simp only [replace, hlive]
      refine hdeleted.update fun o' ho' => ?_
      rw [← Option.some.inj ho']
      exact hprice

/-- A feasible history leaves a book that refines its resting orders, with the right best prices. -/
theorem feasible_quotes {messages : List DecodedOrder}
    (hfeasible : Resting.Feasible (fun _ => none) messages) :
    (empty.applyAll messages).Refines (Resting.after messages) ∧ Priced (Resting.after messages) ∧
      (empty.applyAll messages).Topped := by
  induction messages using List.reverseRecOn with
  | nil => exact ⟨empty_refines, fun _ _ ho => (by cases ho), rfl, rfl⟩
  | append_singleton messages m ih =>
    obtain ⟨hbefore, hm, hcap, -⟩ := (Resting.feasible_append _ messages [m]).mp hfeasible
    obtain ⟨hrefines, hpriced, htop⟩ := ih hbefore
    rw [applyAll_snoc, Resting.after_snoc]
    exact ⟨hrefines.apply hm.orderly hcap, hpriced.step hm,
      (htop.apply_iff (applyAll_ranked messages) m).mpr (hrefines.keepsTop hpriced htop hm hcap)⟩

/-! ## What is quoted -/

/-- The best prices are those of the resting orders. -/
structure QuotesBest (b : OrderBook) (resting : Resting) : Prop where
  bid_bounds : ∀ price, LiveAt resting sideBuy price → b.bestBid ≠ 0 ∧ price ≤ b.bestBid
  bid_live : b.bestBid ≠ 0 → LiveAt resting sideBuy b.bestBid
  ask_bounds : ∀ price, LiveAt resting sideSell price → b.bestAsk ≠ 0 ∧ b.bestAsk ≤ price
  ask_live : b.bestAsk ≠ 0 → LiveAt resting sideSell b.bestAsk

/-- The cached prices of a book that is right about its resting orders are the best ones. -/
theorem Refines.quotesBest (h : b.Refines resting) (hpriced : Priced resting) (htop : b.Topped) :
    QuotesBest b resting := by
  obtain ⟨hbid, hask⟩ := htop
  have hmem := h.mem_prices_iff
  have hlisted {s : BookSide} (htop : s.top ≠ 0) : s.top ∈ s.prices :=
    top_mem_prices (Nat.pos_of_ne_zero fun hzero => htop (top_of_count_eq_zero hzero))
  constructor
  · intro price hlive
    have hprice := (hmem price).1.mpr hlive
    rw [hbid]
    refine ⟨?_, UInt32.not_lt.mp (h.levels.1.sorted.not_before_top hprice)⟩
    exact hpriced.ne_zero ((hmem _).1.mp (top_mem_prices (count_pos_of_mem_prices hprice)))
  · rw [hbid]
    exact fun hne => (hmem _).1.mp (hlisted hne)
  · intro price hlive
    have hprice := (hmem price).2.mpr hlive
    rw [hask]
    refine ⟨?_, UInt32.not_lt.mp (h.levels.2.sorted.not_before_top hprice)⟩
    exact hpriced.ne_zero ((hmem _).2.mp (top_mem_prices (count_pos_of_mem_prices hprice)))
  · rw [hask]
    exact fun hne => (hmem _).2.mp (hlisted hne)

/-- After any history within the capacity of the book, the best bid is the highest price at which a
buy order rests and the best ask the lowest at which a sell order does, and zero means that there is
none. -/
theorem best_prices_of_resting (messages : List DecodedOrder)
    (hfeasible : Resting.Feasible (fun _ => none) messages) :
    QuotesBest (empty.applyAll messages) (Resting.after messages) := by
  obtain ⟨hrefines, hpriced, htop⟩ := feasible_quotes hfeasible
  exact hrefines.quotesBest hpriced htop

/-- A bid for 50 shares of which 20 are executed. -/
def partlyFilled : List DecodedOrder :=
  [⟨.add, 7, 0, 100, 50, sideBuy, 0⟩, ⟨.execute, 7, 0, 0, 20, 0, 0⟩]

theorem partlyFilled_feasible : Resting.Feasible (fun _ => none) partlyFilled :=
  Resting.feasible_of_small (by decide) (by decide)
    (Schedule.forall_snoc_prefix_iff.mpr (by decide))

theorem partlyFilled_quotesBest :
    QuotesBest (empty.applyAll partlyFilled) (Resting.after partlyFilled) :=
  best_prices_of_resting partlyFilled partlyFilled_feasible

/-- Two histories within the capacity of the book that leave the same resting orders leave the same
answers: every reference is found alike, and the quotes of both sides, the best prices and the spread
are the same. -/
theorem same_resting_same_quotes (left right : List DecodedOrder)
    (hleft : Resting.Feasible (fun _ => none) left) (hright : Resting.Feasible (fun _ => none) right)
    (hsame : Resting.after left = Resting.after right) :
    (∀ ref, ((empty.applyAll left).liveOrders.lookup ref).map LiveOrder.toResting =
      ((empty.applyAll right).liveOrders.lookup ref).map LiveOrder.toResting) ∧
    (empty.applyAll left).bids.quotes = (empty.applyAll right).bids.quotes ∧
    (empty.applyAll left).asks.quotes = (empty.applyAll right).asks.quotes ∧
    (empty.applyAll left).bestBid = (empty.applyAll right).bestBid ∧
    (empty.applyAll left).bestAsk = (empty.applyAll right).bestAsk ∧
    (empty.applyAll left).spread = (empty.applyAll right).spread := by
  obtain ⟨hl, -, hlbid, hlask⟩ := feasible_quotes hleft
  obtain ⟨hr, -, hrbid, hrask⟩ := feasible_quotes hright
  rw [hsame] at hl
  have hbids := hl.levels.1.quotes_eq hr.levels.1
  have hasks := hl.levels.2.quotes_eq hr.levels.2
  have hbid : (empty.applyAll left).bestBid = (empty.applyAll right).bestBid := by
    rw [hlbid, hrbid, top_eq_quotes, top_eq_quotes, hbids]
  have hask : (empty.applyAll left).bestAsk = (empty.applyAll right).bestAsk := by
    rw [hlask, hrask, top_eq_quotes, top_eq_quotes, hasks]
  refine ⟨fun ref => (hl.agrees ref).trans (hr.agrees ref).symm, hbids, hasks, hbid, hask, ?_⟩
  change (if (empty.applyAll left).bestAsk == 0 || (empty.applyAll left).bestBid == 0 then 0
    else (empty.applyAll left).bestAsk - (empty.applyAll left).bestBid) = _
  rw [hbid, hask]
  rfl

/-- A bid for the 30 shares that the execution has left of the other one. -/
def addedSmaller : List DecodedOrder := [⟨.add, 7, 0, 100, 30, sideBuy, 0⟩]

theorem addedSmaller_feasible : Resting.Feasible (fun _ => none) addedSmaller :=
  Resting.feasible_of_small (by decide) (by decide)
    (Schedule.forall_snoc_prefix_iff.mpr (by decide))

/-- The bid is quoted the same, executed down to 30 shares or added with 30. -/
theorem partlyFilled_same_quotes :
    (empty.applyAll partlyFilled).bids.quotes = (empty.applyAll addedSmaller).bids.quotes := by
  have hsame : Resting.after partlyFilled = Resting.after addedSmaller := by
    simp [Resting.after, partlyFilled, addedSmaller, Resting.step, add, execute]
  exact (same_resting_same_quotes partlyFilled addedSmaller partlyFilled_feasible
    addedSmaller_feasible hsame).2.1

end OrderBook

end NanoRing
