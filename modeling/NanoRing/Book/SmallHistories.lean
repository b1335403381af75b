import NanoRing.Book.BookRefinement
import NanoRing.Common.Schedule

/-!
# Small histories

What rests after a history is at no more prices than it has messages, and has no more shares than
they bring. So a history of at most 256 messages whose shares fit in 32 bits cannot take a book past
its capacity: it is feasible when each of its messages is admissible, which can be tested.
-/

namespace NanoRing

namespace Resting

open RestingBook

instance (resting : Resting) (m : DecodedOrder) : Decidable (Admissible resting m) :=
  match htype : m.type with
  | .add =>
    decidable_of_iff ((m.side = sideBuy ∨ m.side = sideSell) ∧ 1 ≤ m.price ∧ 1 ≤ m.shares ∧
      resting m.orderRef = none) (by rw [Admissible, htype])
  | .replace =>
    decidable_of_iff (resting m.orderRef ≠ none → 1 ≤ m.price ∧ 1 ≤ m.shares ∧
      (resting m.newOrderRef = none ∨ m.newOrderRef = m.orderRef)) (by rw [Admissible, htype])
  | .execute | .delete => isTrue (by rw [Admissible, htype]; trivial)

theorem after_snoc (done : List DecodedOrder) (m : DecodedOrder) :
    after (done ++ [m]) = (after done).step m := List.foldl_concat _ _ _ _

/-- Entering an order at a reference adds at most its shares to a total. -/
theorem sharesAt_add_le (resting : Resting) (ref : UInt64) (o : RestingOrder UInt8 UInt32)
    (side : UInt8) (price : UInt32) :
    sharesAt (add resting ref o) side price ≤ sharesAt resting side price + o.remaining := by
  have hsum := sharesAt_update resting ref (some o) side price
  have hle : contribution (some o) side price ≤ o.remaining := by
    simp only [contribution, Option.elim_some]
    split <;> omega
  rw [add]
  omega

/-- What rests anywhere is at most what the messages brought. -/
theorem sharesAt_after_le (messages : List DecodedOrder) (side : UInt8) (price : UInt32) :
    sharesAt (after messages) side price ≤ (messages.map fun m => m.shares.toNat).sum := by
  induction messages using List.reverseRecOn with
  | nil => exact (sharesAt_empty side price).le
  | append_singleton done m ih =>
    rw [after_snoc, List.map_append, List.sum_append, List.map_singleton, List.sum_singleton]
    unfold step
    cases m.type with
    | add => exact (sharesAt_add_le _ _ _ _ _).trans (Nat.add_le_add_right ih _)
    | execute =>
      cases hentry : after done m.orderRef with
      | none =>
        rw [execute, hentry]
        exact ih.trans (Nat.le_add_right _ _)
      | some o =>
        obtain ⟨entry, hupdate, -, hle⟩ := execute_spec hentry m.shares.toNat
        rw [hupdate]
        exact (sharesAt_update_le (hle side price)).trans (ih.trans (Nat.le_add_right _ _))
    | delete => exact (sharesAt_update_le (Nat.zero_le _)).trans (ih.trans (Nat.le_add_right _ _))
    | replace =>
      cases hentry : after done m.orderRef with
      | none =>
        rw [replace, hentry]
        exact ih.trans (Nat.le_add_right _ _)
      | some o =>
        simp only [replace, hentry]
        refine (sharesAt_add_le _ _ _ _ _).trans (Nat.add_le_add_right ?_ _)
        exact (sharesAt_update_le (Nat.zero_le _)).trans ih

/-- A resting order has the price of a message. -/
theorem price_of_after {messages : List DecodedOrder} {ref : UInt64} {o : RestingOrder UInt8 UInt32}
    (ho : after messages ref = some o) : o.price ∈ messages.map DecodedOrder.price := by
  induction messages using List.reverseRecOn generalizing ref o with
  | nil => cases ho
  | append_singleton done m ih =>
    have hold {ref : UInt64} {o : RestingOrder UInt8 UInt32} (ho : after done ref = some o) :
        o.price ∈ (done ++ [m]).map DecodedOrder.price := by
      rw [List.map_append]
      exact List.mem_append_left _ (ih ho)
    have hnew : m.price ∈ (done ++ [m]).map DecodedOrder.price :=
      List.mem_map_of_mem (List.mem_append_right _ (List.mem_singleton_self m))
    rw [after_snoc] at ho
    unfold step at ho
    cases htype : m.type with
    | add =>
      simp only [htype, add, Function.update_apply] at ho
      split at ho
      · exact Option.some.inj ho ▸ hnew
      · exact hold ho
    | execute =>
      cases hentry : after done m.orderRef with
      | none =>
        simp only [htype, execute, hentry] at ho
        exact hold ho
      | some o' =>
        simp only [htype, execute, hentry, Function.update_apply] at ho
        split at ho
        · obtain ⟨-, hleft⟩ := Option.ite_none_left_eq_some.mp ho
          obtain rfl := Option.some.inj hleft
          have hprice := hold hentry
          exact hprice
        · exact hold ho
    | delete =>
      simp only [htype, delete, Function.update_apply] at ho
      split at ho
      · contradiction
      · exact hold ho
    | replace =>
      cases hentry : after done m.orderRef with
      | none =>
        simp only [htype, replace, hentry] at ho
        exact hold ho
      | some o' =>
        simp only [htype, replace, hentry, add, delete, Function.update_apply] at ho
        split at ho
        · exact Option.some.inj ho ▸ hnew
        · split at ho
          · contradiction
          · exact hold ho

/-- Every price at which an order rests is that of a message. -/
theorem ncard_liveAt_after_le (messages : List DecodedOrder) (side : UInt8) :
    {price | LiveAt (after messages) side price}.ncard ≤ messages.length := by
  have hsubset : {price | LiveAt (after messages) side price} ⊆
      ↑(messages.map DecodedOrder.price).toFinset := by
    rintro price ⟨ref, o, ho, -, rfl⟩
    rw [List.coe_toFinset]
    exact price_of_after ho
  calc {price | LiveAt (after messages) side price}.ncard
      ≤ (↑(messages.map DecodedOrder.price).toFinset : Set UInt32).ncard :=
        Set.ncard_le_ncard hsubset (Finset.finite_toSet _)
    _ = (messages.map DecodedOrder.price).toFinset.card := Set.ncard_coe_finset _
    _ ≤ (messages.map DecodedOrder.price).length := List.toFinset_card_le _
    _ = messages.length := List.length_map _

theorem withinCapacity_after {messages : List DecodedOrder} (hlength : messages.length ≤ maxLevels)
    (hshares : (messages.map fun m => m.shares.toNat).sum < 2 ^ 32) :
    WithinCapacity (after messages) :=
  fun side _ => ⟨(ncard_liveAt_after_le messages side).trans hlength,
    fun price => (sharesAt_after_le messages side price).trans_lt hshares⟩

/-- A short history of few shares is feasible when its messages are admissible. -/
theorem feasible_of_small {messages : List DecodedOrder} (hlength : messages.length ≤ maxLevels)
    (hshares : (messages.map fun m => m.shares.toNat).sum < 2 ^ 32)
    (hadmissible : ∀ done m, done ++ [m] <+: messages → Admissible (after done) m) :
    Feasible (fun _ => none) messages := by
  induction messages using List.reverseRecOn with
  | nil => trivial
  | append_singleton done m ih =>
    have hwithin := withinCapacity_after hlength hshares
    rw [after_snoc] at hwithin
    rw [List.map_append, List.sum_append] at hshares
    rw [List.length_append] at hlength
    have hdone : Feasible (fun _ => none) done :=
      ih ((Nat.le_add_right _ _).trans hlength) ((Nat.le_add_right _ _).trans_lt hshares)
        fun first m' hfirst => hadmissible first m' (hfirst.trans (List.prefix_append done [m]))
    exact (feasible_append _ done [m]).mpr
      ⟨hdone, hadmissible done m List.prefix_rfl, hwithin, trivial⟩

end Resting

end NanoRing
