import NanoRing.Book.LevelCalls
import NanoRing.Book.OrderContents

/-!
# The live orders after a message

A message inserts an order into the map, erases one or reduces its remaining shares. Whatever
the references are, the map stays well formed, an order that a message enters is found, and
no other reference is found that was not found before.
-/

namespace NanoRing

namespace OrderBook

variable {b : OrderBook} {m : DecodedOrder}

/-! ## The handlers -/

@[simp] theorem handleAdd_liveOrders (b : OrderBook) (m : DecodedOrder) :
    (b.handleAdd m).liveOrders =
      b.liveOrders.insert m.orderRef ⟨m.orderRef, m.price, m.shares, m.side, true⟩ := by
  simp [handleAdd]

theorem handleExecute_liveOrders {idx : ℕ} (hfind : b.liveOrders.find m.orderRef = some idx) :
    (b.handleExecute m).liveOrders =
      let lo := b.liveOrders.slots idx
      let left := lo.remainingShares - lo.executed m.shares
      if left == 0 then (b.liveOrders.setRemaining idx left).erase m.orderRef
      else b.liveOrders.setRemaining idx left := by
  simp only [b.handleExecute_of_find hfind]
  split <;> simp

theorem handleDelete_liveOrders {idx : ℕ} (hfind : b.liveOrders.find m.orderRef = some idx) :
    (b.handleDelete m).liveOrders = b.liveOrders.erase m.orderRef := by
  simp [handleDelete, hfind]

theorem handleReplace_liveOrders {idx : ℕ} (hfind : b.liveOrders.find m.orderRef = some idx) :
    (b.handleReplace m).liveOrders =
      (b.liveOrders.erase m.orderRef).insert m.newOrderRef
        ⟨m.newOrderRef, m.price, m.shares, (b.liveOrders.slots idx).side, true⟩ := by
  simp [handleReplace, hfind]

/-- A message other than an Add leaves the map alone when its reference is not found. -/
theorem apply_liveOrders_of_absent (htype : m.type ≠ .add)
    (hfind : b.liveOrders.find m.orderRef = none) : (b.apply m).liveOrders = b.liveOrders := by
  unfold apply
  cases hm : m.type with
  | add => exact absurd hm htype
  | execute => simp [handleExecute, hfind]
  | delete => simp [handleDelete, hfind]
  | replace => simp [handleReplace, hfind]

/-! ## The references that are found -/

/-- The reference that a message enters into the map. -/
def enteredRef (b : OrderBook) (m : DecodedOrder) : Option UInt64 :=
  match m.type with
  | .add => some m.orderRef
  | .replace => (b.liveOrders.lookup m.orderRef).map fun _ => m.newOrderRef
  | .execute => none
  | .delete => none

/-- A message keeps the map well formed, enters at most its own reference, and that one for
sure. -/
theorem lookup_apply (h : b.liveOrders.WellFormed) (m : DecodedOrder) :
    (b.apply m).liveOrders.WellFormed ∧
      (∀ ref, b.enteredRef m = some ref → (b.apply m).liveOrders.lookup ref ≠ none) ∧
      ∀ ref, (b.apply m).liveOrders.lookup ref ≠ none →
        b.enteredRef m = some ref ∨ b.liveOrders.lookup ref ≠ none := by
  by_cases hadd : m.type = .add
  · simp only [apply, enteredRef, hadd, handleAdd_liveOrders, Option.some.injEq, forall_eq']
    refine ⟨h.insert _ _, h.lookup_insert_ne_none _ _, fun ref hfound => ?_⟩
    exact (h.of_lookup_insert hfound).imp_left Eq.symm
  · cases hfind : b.liveOrders.find m.orderRef with
    | none =>
      have hnone : b.enteredRef m = none := by
        unfold enteredRef
        rw [FlatOrderMap.lookup, hfind]
        cases hm : m.type with
        | add => exact absurd hm hadd
        | execute | delete | replace => rfl
      rw [apply_liveOrders_of_absent hadd hfind, hnone]
      exact ⟨h, fun ref href => (by cases href), fun ref hfound => Or.inr hfound⟩
    | some idx =>
      cases hm : m.type with
      | add => exact absurd hm hadd
      | execute =>
        have hset := h.setRemaining hfind
        simp only [apply, enteredRef, hm, handleExecute_liveOrders hfind]
        split
        · refine ⟨(hset _).erase _, fun ref href => (by cases href), fun ref hfound => Or.inr ?_⟩
          exact h.of_lookup_setRemaining hfind ((hset _).of_lookup_erase hfound)
        · exact ⟨hset _, fun ref href => (by cases href),
            fun ref hfound => Or.inr (h.of_lookup_setRemaining hfind hfound)⟩
      | delete =>
        simp only [apply, enteredRef, hm, handleDelete_liveOrders hfind]
        exact ⟨h.erase _, fun ref href => (by cases href),
          fun ref hfound => Or.inr (h.of_lookup_erase hfound)⟩
      | replace =>
        have herase := h.erase m.orderRef
        simp only [apply, enteredRef, hm, handleReplace_liveOrders hfind, FlatOrderMap.lookup, hfind,
          Option.map_some, Option.some.injEq, forall_eq']
        refine ⟨herase.insert _ _, herase.lookup_insert_ne_none _ _, fun ref hfound => ?_⟩
        rcases herase.of_lookup_insert hfound with rfl | hbefore
        · exact Or.inl rfl
        · exact Or.inr (h.of_lookup_erase hbefore)

/-- The map of live orders is well formed after any messages. -/
theorem applyAll_wellFormed (messages : List DecodedOrder) :
    (empty.applyAll messages).liveOrders.WellFormed := by
  induction messages using List.reverseRecOn with
  | nil => exact FlatOrderMap.empty_wellFormed
  | append_singleton messages m ih =>
    rw [applyAll_snoc]
    exact (lookup_apply ih m).1

end OrderBook

end NanoRing
