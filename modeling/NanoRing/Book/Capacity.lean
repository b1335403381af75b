import NanoRing.Book.IdleMessages
import NanoRing.Book.UsedSlots

/-!
# The size of the order table

The order table only grows, and only in front of an insertion that finds three quarters of its slots
occupied. So a table that has grown has at most 8/3 slots for each order that was live at some
moment before, whatever was deleted since; and the slots that all its growth steps have walked add up
to what the table has gained, at most 8/3 for each message that entered an order.
-/

namespace NanoRing

namespace FlatOrderMap

/-- The slots that the growth test in front of an insertion walks: all of them, or none. -/
def rehashWalk (m : FlatOrderMap) : ℕ := if m.size * 4 ≥ m.capacity * 3 then m.capacity else 0

variable {m : FlatOrderMap}

theorem grown_capacity (m : FlatOrderMap) : m.grown.capacity = m.capacity + m.rehashWalk := by
  unfold grown rehashWalk
  split
  · exact Nat.mul_two m.capacity
  · rfl

theorem WellFormed.insert_capacity (h : m.WellFormed) (k : UInt64) (o : LiveOrder) :
    (m.insert k o).capacity = m.capacity + m.rehashWalk := by
  obtain ⟨i, -, heq⟩ := h.insert_eq k o
  rw [heq, ← grown_capacity]
  rfl

/-- An insertion adds one entry at most. -/
theorem WellFormed.insert_size_le (h : m.WellFormed) (k : UInt64) (o : LiveOrder) :
    (m.insert k o).size ≤ m.size + 1 := by
  obtain ⟨i, -, heq⟩ := h.insert_eq k o
  have hsize : m.grown.size = m.size := by
    unfold FlatOrderMap.grown
    split <;> rfl
  rw [heq, ← hsize]
  change (if _ then _ else _) ≤ _
  split
  · exact Nat.le_succ _
  · exact Nat.le_refl _

theorem WellFormed.erase_capacity_size (h : m.WellFormed) (k : UInt64) :
    (m.erase k).capacity = m.capacity ∧ (m.erase k).size ≤ m.size := by
  cases hfind : m.find k with
  | none =>
    rw [h.shaped.erase_of_absent hfind]
    exact ⟨rfl, Nat.le_refl _⟩
  | some i =>
    rw [h.shaped.erase_of_find hfind]
    exact ⟨rfl, Nat.sub_le _ _⟩

/-- A table that is walked is three quarters full. -/
theorem rehashWalk_le (m : FlatOrderMap) : 3 * m.rehashWalk ≤ 4 * m.size := by
  unfold rehashWalk
  split <;> omega

/-- A walk doubles the table. -/
theorem rehashWalk_eq (m : FlatOrderMap) : m.rehashWalk = 0 ∨ m.rehashWalk = m.capacity := by
  unfold rehashWalk
  split
  · exact Or.inr rfl
  · exact Or.inl rfl

end FlatOrderMap

namespace OrderBook

/-- The slots that a message makes the growth of the order table walk. -/
def rehashWalk (b : OrderBook) (m : DecodedOrder) : ℕ :=
  match m.type with
  | .add => b.liveOrders.rehashWalk
  | .replace =>
    match b.liveOrders.find m.orderRef with
    | none => 0
    | some _ => (b.liveOrders.erase m.orderRef).rehashWalk
  | .execute => 0
  | .delete => 0

/-- The sum of what the messages of a list contribute, each where it is applied. -/
def sumAlong (f : OrderBook → DecodedOrder → ℕ) (b : OrderBook) : List DecodedOrder → ℕ
  | [] => 0
  | m :: rest => f b m + sumAlong f (b.apply m) rest

theorem sumAlong_snoc (f : OrderBook → DecodedOrder → ℕ) (b : OrderBook)
    (messages : List DecodedOrder) (m : DecodedOrder) :
    b.sumAlong f (messages ++ [m]) = b.sumAlong f messages + f (b.applyAll messages) m := by
  induction messages generalizing b with
  | nil => exact Nat.add_comm _ _
  | cons first rest ih =>
    rw [List.cons_append, sumAlong, ih, sumAlong, Nat.add_assoc]
    rfl

/-- The slots that are walked while a list of messages is applied. -/
def slotsWalked (b : OrderBook) (messages : List DecodedOrder) : ℕ :=
  b.sumAlong rehashWalk messages

/-- One message: the table gains the slots that are walked, at most 4/3 for each order that was
live, and only a message that enters an order adds one. -/
theorem capacity_apply {b : OrderBook} (h : b.liveOrders.WellFormed) (m : DecodedOrder) :
    (b.apply m).liveOrders.capacity = b.liveOrders.capacity + b.rehashWalk m ∧
    (b.rehashWalk m = 0 ∨ b.rehashWalk m = b.liveOrders.capacity) ∧
    3 * b.rehashWalk m ≤ 4 * b.liveOrders.size ∧
    (b.apply m).liveOrders.size ≤ b.liveOrders.size +
      if m.type = .add ∨ m.type = .replace then 1 else 0 := by
  cases hm : m.type with
  | add =>
    simp only [apply, rehashWalk, hm, handleAdd_liveOrders, true_or, if_true]
    exact ⟨h.insert_capacity _ _, b.liveOrders.rehashWalk_eq, b.liveOrders.rehashWalk_le,
      h.insert_size_le _ _⟩
  | execute =>
    cases hfind : b.liveOrders.find m.orderRef with
    | none =>
      rw [apply_liveOrders_of_absent (by rw [hm]; exact OrderType.noConfusion) hfind]
      simp [rehashWalk, hm]
    | some idx =>
      simp only [apply, rehashWalk, hm, handleExecute_liveOrders hfind]
      split
      · obtain ⟨hcapacity, hsize⟩ := (h.setRemaining hfind _).erase_capacity_size m.orderRef
        exact ⟨hcapacity, Or.inl trivial, Nat.zero_le _, hsize⟩
      · exact ⟨rfl, Or.inl trivial, Nat.zero_le _, Nat.le_refl _⟩
  | delete =>
    cases hfind : b.liveOrders.find m.orderRef with
    | none =>
      rw [apply_liveOrders_of_absent (by rw [hm]; exact OrderType.noConfusion) hfind]
      simp [rehashWalk, hm]
    | some idx =>
      simp only [apply, rehashWalk, hm, handleDelete_liveOrders hfind]
      obtain ⟨hcapacity, hsize⟩ := h.erase_capacity_size m.orderRef
      exact ⟨hcapacity, Or.inl trivial, Nat.zero_le _, hsize⟩
  | replace =>
    cases hfind : b.liveOrders.find m.orderRef with
    | none =>
      rw [apply_liveOrders_of_absent (by rw [hm]; exact OrderType.noConfusion) hfind]
      simp [rehashWalk, hm, hfind]
    | some idx =>
      simp only [apply, rehashWalk, hm, hfind, handleReplace_liveOrders hfind, or_true, if_true]
      obtain ⟨hcapacity, hsize⟩ := h.erase_capacity_size m.orderRef
      have herased := h.erase m.orderRef
      have hwalk := (b.liveOrders.erase m.orderRef).rehashWalk_eq
      have hfull := (b.liveOrders.erase m.orderRef).rehashWalk_le
      have hinsert := herased.insert_size_le m.newOrderRef
        ⟨m.newOrderRef, m.price, m.shares, (b.liveOrders.slots idx).side, true⟩
      rw [hcapacity] at hwalk
      refine ⟨?_, hwalk, by omega, by omega⟩
      rw [herased.insert_capacity, hcapacity]

/-- At most one order is live for each message that entered one. -/
theorem size_le_entered (messages : List DecodedOrder) :
    (empty.applyAll messages).liveOrders.size ≤
      countOf .add messages + countOf .replace messages := by
  induction messages using List.reverseRecOn with
  | nil => exact Nat.le_refl 0
  | append_singleton messages m ih =>
    obtain ⟨-, -, -, hsize⟩ := capacity_apply (applyAll_wellFormed messages) m
    have hentered : (if m.type = .add ∨ m.type = .replace then 1 else 0) =
        (if m.type = .add then 1 else 0) + if m.type = .replace then 1 else 0 := by
      cases m.type <;> rfl
    rw [applyAll_snoc, countOf_snoc, countOf_snoc]
    omega

theorem countOf_le_of_prefix {kind : OrderType} {done messages : List DecodedOrder}
    (h : done <+: messages) : countOf kind done ≤ countOf kind messages :=
  h.sublist.countP_le

/-- The table has gained exactly the slots that were walked; if it has grown, then some earlier
moment had at least three live orders for every eight of its slots; and the walks come to at most
8/3 slots for each message that entered an order. -/
theorem capacity_earned (messages : List DecodedOrder) :
    (empty.applyAll messages).liveOrders.capacity =
        FlatOrderMap.defaultCapacity + empty.slotsWalked messages ∧
    ((empty.applyAll messages).liveOrders.capacity = FlatOrderMap.defaultCapacity ∨
      ∃ done, done <+: messages ∧ 3 * (empty.applyAll messages).liveOrders.capacity ≤
        8 * (empty.applyAll done).liveOrders.size) ∧
    3 * empty.slotsWalked messages ≤ 8 * (countOf .add messages + countOf .replace messages) := by
  have hwalked : (empty.applyAll messages).liveOrders.capacity =
      FlatOrderMap.defaultCapacity + empty.slotsWalked messages := by
    induction messages using List.reverseRecOn with
    | nil => rfl
    | append_singleton messages m ih =>
      rw [applyAll_snoc, slotsWalked, sumAlong_snoc,
        (capacity_apply (applyAll_wellFormed messages) m).1, ih, slotsWalked, Nat.add_assoc]
  have hpeak : (empty.applyAll messages).liveOrders.capacity = FlatOrderMap.defaultCapacity ∨
      ∃ done, done <+: messages ∧ 3 * (empty.applyAll messages).liveOrders.capacity ≤
        8 * (empty.applyAll done).liveOrders.size := by
    clear hwalked
    induction messages using List.reverseRecOn with
    | nil => exact Or.inl rfl
    | append_singleton messages m ih =>
      obtain ⟨hgains, hwalk, hfull, -⟩ := capacity_apply (applyAll_wellFormed messages) m
      rw [applyAll_snoc, hgains]
      rcases hwalk with hzero | hdoubles
      · rw [hzero, Nat.add_zero]
        exact ih.imp_right fun ⟨done, hdone, hle⟩ => ⟨done, hdone.trans (List.prefix_append _ _), hle⟩
      · -- the table doubles: the orders that are live now have earned its new size
        exact Or.inr ⟨messages, List.prefix_append _ _, by omega⟩
  refine ⟨hwalked, hpeak, ?_⟩
  rcases hpeak with hfresh | ⟨done, hdone, hle⟩
  · have hzero : empty.slotsWalked messages = 0 := by omega
    rw [hzero]
    exact Nat.zero_le _
  · have hsize := size_le_entered done
    have hadds : countOf .add done ≤ countOf .add messages := countOf_le_of_prefix hdone
    have hreplaces : countOf .replace done ≤ countOf .replace messages := countOf_le_of_prefix hdone
    omega

end OrderBook

end NanoRing
