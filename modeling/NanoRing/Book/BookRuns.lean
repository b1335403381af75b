import NanoRing.Book.SmallHistories

/-!
# Runs of the order book

Each handler follows its message on the resting orders, so the book after any feasible list
of messages refines the orders that the list leaves. What a caller reads off the
book, by reference or by level, then follows from the refinement.
-/

namespace NanoRing

namespace OrderBook

open RestingBook

section Handlers

variable {b : OrderBook} {resting : Resting} {m : DecodedOrder}

theorem Refines.handleAdd (h : b.Refines resting) (hside : m.side = sideBuy ∨ m.side = sideSell)
    (hshares : 1 ≤ m.shares) (habsent : resting m.orderRef = none)
    (hcap : Resting.WithinCapacity (add resting m.orderRef ⟨m.side, m.price, m.shares.toNat⟩)) :
    (b.handleAdd m).Refines (add resting m.orderRef ⟨m.side, m.price, m.shares.toNat⟩) := by
  refine (h.addOrder habsent hside hshares hcap).congr ?_ ?_ ?_
  all_goals simp [OrderBook.handleAdd]

/-- A partial fill writes the remaining shares through the pointer. -/
theorem Refines.executePartial (h : b.Refines resting) {idx : ℕ}
    (hfind : b.liveOrders.find m.orderRef = some idx)
    (hless : m.shares < (b.liveOrders.slots idx).remainingShares) :
    (b.handleExecute m).Refines (execute resting m.orderRef m.shares.toNat) := by
  have hclamp : ¬ m.shares > (b.liveOrders.slots idx).remainingShares := UInt32.not_lt.mpr
    (UInt32.le_of_lt hless)
  have hleft : ((b.liveOrders.slots idx).remainingShares - m.shares).toNat =
      (b.liveOrders.slots idx).remainingShares.toNat - m.shares.toNat :=
    UInt32.toNat_sub_of_le _ _ (UInt32.le_of_lt hless)
  have hne : ¬ (b.liveOrders.slots idx).remainingShares - m.shares = 0 := by
    intro hzero
    rw [hzero] at hleft
    have hlt := UInt32.lt_iff_toNat_lt.mp hless
    change 0 = _ at hleft
    omega
  have hstep := h.reduceOrder hfind
    (h.contents.setRemaining hfind ((b.liveOrders.slots idx).remainingShares - m.shares))
    (Or.inr ⟨hless, rfl⟩)
  rw [execute_of_lt (h.find_spec hfind) (UInt32.lt_iff_toNat_lt.mp hless)]
  simp only [Option.map_some, LiveOrder.toResting, hleft] at hstep ⊢
  refine hstep.congr ?_ ?_ ?_
  all_goals simp [OrderBook.handleExecute, hfind, hclamp, hne]

/-- The clamp makes any other fill a full one, which erases the order. -/
theorem Refines.executeFull (h : b.Refines resting) {idx : ℕ}
    (hfind : b.liveOrders.find m.orderRef = some idx)
    (hfull : (b.liveOrders.slots idx).remainingShares ≤ m.shares) :
    (b.handleExecute m).Refines (execute resting m.orderRef m.shares.toNat) := by
  have hclamp : (if m.shares > (b.liveOrders.slots idx).remainingShares then
      (b.liveOrders.slots idx).remainingShares else m.shares) =
      (b.liveOrders.slots idx).remainingShares := by
    split
    · rfl
    · rename_i hle
      exact UInt32.le_antisymm (UInt32.not_lt.mp hle) hfull
  have hmap := (h.contents.setRemaining hfind 0).erase m.orderRef
  rw [Function.update_idem] at hmap
  rw [execute_eq_delete (h.find_spec hfind) (UInt32.le_iff_toNat_le.mp hfull)]
  refine (h.reduceOrder hfind hmap (Or.inl ⟨rfl, rfl⟩)).congr ?_ ?_ ?_
  all_goals simp only [OrderBook.handleExecute, hfind, hclamp, UInt32.sub_self, beq_self_eq_true,
    if_true, recalculateBbo_liveOrders, recalculateBbo_bids, recalculateBbo_asks,
    removeLevel_liveOrders, removeLevel_bids, removeLevel_asks]

theorem Refines.handleExecute (h : b.Refines resting) :
    (b.handleExecute m).Refines (execute resting m.orderRef m.shares.toNat) := by
  cases hfind : b.liveOrders.find m.orderRef with
  | none =>
    have habsent := h.find_none hfind
    rw [execute, habsent]
    refine h.congr ?_ ?_ ?_
    all_goals simp [OrderBook.handleExecute, hfind]
  | some idx =>
    rcases UInt32.lt_or_le m.shares (b.liveOrders.slots idx).remainingShares with hless | hfull
    · exact h.executePartial hfind hless
    · exact h.executeFull hfind hfull

theorem Refines.handleDelete (h : b.Refines resting) :
    (b.handleDelete m).Refines (delete resting m.orderRef) := by
  cases hfind : b.liveOrders.find m.orderRef with
  | none =>
    rw [delete_of_absent (h.find_none hfind)]
    refine h.congr ?_ ?_ ?_
    all_goals simp [OrderBook.handleDelete, hfind]
  | some idx =>
    refine (h.dropOrder hfind).congr ?_ ?_ ?_
    all_goals simp [OrderBook.handleDelete, hfind]

theorem Refines.handleReplace (h : b.Refines resting)
    (hnew : resting m.orderRef ≠ none → 1 ≤ m.shares ∧
      (resting m.newOrderRef = none ∨ m.newOrderRef = m.orderRef))
    (hcap : Resting.WithinCapacity
      (replace resting m.orderRef m.newOrderRef m.price m.shares.toNat)) :
    (b.handleReplace m).Refines
      (replace resting m.orderRef m.newOrderRef m.price m.shares.toNat) := by
  cases hfind : b.liveOrders.find m.orderRef with
  | none =>
    rw [replace, h.find_none hfind]
    refine h.congr ?_ ?_ ?_
    all_goals simp [OrderBook.handleReplace, hfind]
  | some idx =>
    have hresting := h.find_spec hfind
    obtain ⟨hshares, href⟩ := hnew (by rw [hresting]; exact Option.some_ne_none _)
    simp only [replace, hresting] at hcap ⊢
    have hadded := (h.dropOrder hfind).addOrder (delete_eq_none href) (h.sided _ _ hresting) hshares
      hcap
    refine hadded.congr ?_ ?_ ?_
    all_goals simp [OrderBook.handleReplace, hfind, LiveOrder.toResting]

/-- One message keeps the refinement. -/
theorem Refines.apply (h : b.Refines resting) (hm : Resting.Orderly resting m)
    (hcap : Resting.WithinCapacity (Resting.step resting m)) :
    (b.apply m).Refines (Resting.step resting m) := by
  unfold Resting.Orderly at hm
  unfold Resting.step at hcap ⊢
  unfold OrderBook.apply
  cases htype : m.type with
  | add =>
    rw [htype] at hm hcap
    exact h.handleAdd hm.1 hm.2.1 hm.2.2 hcap
  | execute => exact h.handleExecute
  | delete => exact h.handleDelete
  | replace =>
    rw [htype] at hm hcap
    exact h.handleReplace hm hcap

/-- A feasible list of messages keeps the refinement. -/
theorem Refines.applyAll {messages : List DecodedOrder} (h : b.Refines resting)
    (hfeasible : Resting.Feasible resting messages) :
    (b.applyAll messages).Refines (messages.foldl Resting.step resting) := by
  induction messages generalizing b resting with
  | nil => exact h
  | cons m rest ih =>
    obtain ⟨hm, hcap, hrest⟩ := hfeasible
    exact ih (h.apply hm.orderly hcap) hrest

end Handlers

/-! ## What a caller reads off the book -/

/-- The listed prices of a side are its live prices. -/
theorem Refines.mem_prices_iff {b : OrderBook} {resting : Resting} (h : b.Refines resting)
    (price : UInt32) :
    (price ∈ b.bids.prices ↔ LiveAt resting sideBuy price) ∧
      (price ∈ b.asks.prices ↔ LiveAt resting sideSell price) := by
  rw [h.levels.1.mem_prices_iff, h.levels.2.mem_prices_iff, sharesAt_pos_iff h.positive,
    sharesAt_pos_iff h.positive]
  exact ⟨Iff.rfl, Iff.rfl⟩

/-- Within its capacity the book answers like the resting orders: at every point of a feasible
list of messages, every reference is found with its side, price and remaining shares, and each
side lists exactly its live prices, strictly from the best price on. -/
theorem applyAll_refines_resting (messages : List DecodedOrder)
    (hfeasible : Resting.Feasible (fun _ => none) messages) (done : List DecodedOrder)
    (hdone : done <+: messages) :
    (∀ ref, ((empty.applyAll done).liveOrders.lookup ref).map LiveOrder.toResting =
      Resting.after done ref) ∧
    (∀ price, price ∈ (empty.applyAll done).bids.prices ↔
      LiveAt (Resting.after done) sideBuy price) ∧
    (empty.applyAll done).bids.prices.Pairwise (· > ·) ∧
    (∀ price, price ∈ (empty.applyAll done).asks.prices ↔
      LiveAt (Resting.after done) sideSell price) ∧
    (empty.applyAll done).asks.prices.Pairwise (· < ·) := by
  obtain ⟨rest, rfl⟩ := hdone
  have h := empty_refines.applyAll ((Resting.feasible_append _ done rest).mp hfeasible).1
  refine ⟨h.agrees, fun p => (h.mem_prices_iff p).1, ?_, fun p => (h.mem_prices_iff p).2, ?_⟩
  · exact h.levels.1.sorted.pairwise_prices
  · exact h.levels.2.sorted.pairwise_prices

/-- One order is added, partly filled, replaced and deleted. -/
def lifecycle : List DecodedOrder :=
  [⟨.add, 7, 0, 100, 50, sideBuy, 0⟩, ⟨.execute, 7, 0, 0, 20, 0, 0⟩,
    ⟨.replace, 7, 0, 101, 30, 0, 9⟩, ⟨.delete, 9, 0, 0, 0, 0, 0⟩]

/-- The life cycle is feasible, so the book refines it at every point. -/
theorem lifecycle_refines_resting :
    Resting.Feasible (fun _ => none) lifecycle ∧ ∀ ref,
      ((empty.applyAll lifecycle).liveOrders.lookup ref).map LiveOrder.toResting =
        Resting.after lifecycle ref := by
  have hfeasible : Resting.Feasible (fun _ => none) lifecycle :=
    Resting.feasible_of_small (by decide) (by decide)
      (Schedule.forall_snoc_prefix_iff.mpr (by decide))
  exact ⟨hfeasible, (applyAll_refines_resting lifecycle hfeasible lifecycle List.prefix_rfl).1⟩

end OrderBook

end NanoRing
