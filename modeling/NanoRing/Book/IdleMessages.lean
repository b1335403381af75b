import NanoRing.Book.LiveOrders
import NanoRing.Book.SymbolBooks

/-!
# Messages about orders that are not live

An Execute, a Delete or a Replace of a reference that is not live raises its counter and does
nothing else; in particular a Replace does not enter its new reference. A list in which no
message names the reference of an earlier Add therefore leaves the book of its Adds alone, with
three counters raised. In that book every added order rests with all its shares, and the best
prices are the extreme prices ever added, however many of them the level arrays had to leave out.
-/

namespace NanoRing

/-- The Adds of a list of messages, in order. -/
def addsOf (messages : List DecodedOrder) : List DecodedOrder :=
  messages.filter fun m => m.type = .add

/-- The number of messages of a kind. -/
def countOf (kind : OrderType) (messages : List DecodedOrder) : ℕ :=
  messages.countP fun m => m.type = kind

/-- No later message of another kind names the reference of an Add. -/
def Unrelated (messages : List DecodedOrder) : Prop :=
  messages.Pairwise fun earlier later =>
    earlier.type = .add → later.type ≠ .add → later.orderRef ≠ earlier.orderRef

/-- No two Adds carry the same reference. -/
def DistinctAdds (messages : List DecodedOrder) : Prop :=
  (addsOf messages).Pairwise fun earlier later => earlier.orderRef ≠ later.orderRef

theorem mem_addsOf {messages : List DecodedOrder} {m : DecodedOrder} :
    m ∈ addsOf messages ↔ m ∈ messages ∧ m.type = .add := by
  rw [addsOf, List.mem_filter, decide_eq_true_eq]

theorem addsOf_snoc (messages : List DecodedOrder) (m : DecodedOrder) :
    addsOf (messages ++ [m]) = if m.type = .add then addsOf messages ++ [m] else addsOf messages := by
  rw [addsOf, List.filter_append]
  by_cases hadd : m.type = .add <;> simp [addsOf, hadd]

theorem countOf_snoc (kind : OrderType) (messages : List DecodedOrder) (m : DecodedOrder) :
    countOf kind (messages ++ [m]) = countOf kind messages + if m.type = kind then 1 else 0 := by
  rw [countOf, List.countP_append, List.countP_singleton, ← countOf]
  simp only [decide_eq_true_eq]

/-- The record that an Add enters. -/
def DecodedOrder.entered (m : DecodedOrder) : LiveOrder :=
  ⟨m.orderRef, m.price, m.shares, m.side, true⟩

namespace OrderBook

/-- The book with other values in the counters of amendments. -/
def withCounts (b : OrderBook) (executes deletes replaces : ℕ) : OrderBook :=
  { b with stats := { b.stats with executes, deletes, replaces } }

section Counts

variable (b : OrderBook) (executes deletes replaces : ℕ) (side : UInt8) (price shares : UInt32)

theorem addLevel_withCounts : (b.withCounts executes deletes replaces).addLevel side price shares =
    (b.addLevel side price shares).withCounts executes deletes replaces := by
  unfold addLevel
  split <;> rfl

theorem improveBbo_withCounts : (b.withCounts executes deletes replaces).improveBbo side price =
    (b.improveBbo side price).withCounts executes deletes replaces := by
  have hbid : (b.withCounts executes deletes replaces).bestBidPrice = b.bestBidPrice := rfl
  have hask : (b.withCounts executes deletes replaces).bestAskPrice = b.bestAskPrice := rfl
  unfold improveBbo
  rw [hbid, hask]
  split
  · split <;> rfl
  · split <;> rfl

/-- An Add neither reads nor changes the counters of amendments. -/
theorem handleAdd_withCounts (m : DecodedOrder) :
    (b.withCounts executes deletes replaces).handleAdd m =
      (b.handleAdd m).withCounts executes deletes replaces := by
  unfold handleAdd
  rw [← improveBbo_withCounts, ← addLevel_withCounts]
  rfl

end Counts

/-- A message about an order that is not live raises its counter and does nothing else. -/
theorem apply_of_absent {b : OrderBook} {m : DecodedOrder} (htype : m.type ≠ .add)
    (habsent : b.liveOrders.find m.orderRef = none) :
    b.apply m = b.withCounts (b.stats.executes + if m.type = .execute then 1 else 0)
      (b.stats.deletes + if m.type = .delete then 1 else 0)
      (b.stats.replaces + if m.type = .replace then 1 else 0) := by
  unfold apply
  cases hm : m.type with
  | add => exact absurd hm htype
  | execute => simp [handleExecute, habsent, withCounts]
  | delete => simp [handleDelete, habsent, withCounts]
  | replace => simp [handleReplace, habsent, withCounts]

/-! ## The book of Adds -/

section Adds

variable {adds : List DecodedOrder}

/-- Whatever the references, only added ones are found. -/
theorem exists_add_of_lookup (hadds : ∀ a ∈ adds, a.type = .add) {ref : UInt64}
    (hfound : (empty.applyAll adds).liveOrders.lookup ref ≠ none) :
    ∃ a ∈ adds, a.orderRef = ref := by
  induction adds using List.reverseRecOn with
  | nil => exact absurd (FlatOrderMap.empty_represents.lookup_eq ref) hfound
  | append_singleton adds a ih =>
    rw [applyAll_snoc] at hfound
    have hlast : a.type = .add := hadds a (List.mem_append_right _ (List.mem_singleton_self a))
    rcases (lookup_apply (applyAll_wellFormed adds) a).2.2 ref hfound with hentered | hbefore
    · rw [enteredRef, hlast] at hentered
      exact ⟨a, List.mem_append_right _ (List.mem_singleton_self a), Option.some.inj hentered⟩
    · obtain ⟨a', ha', href⟩ := ih (fun x hx => hadds x (List.mem_append_left _ hx)) hbefore
      exact ⟨a', List.mem_append_left _ ha', href⟩

/-- Added under distinct references, every order is found as it was entered. -/
theorem lookup_adds_iff (hadds : ∀ a ∈ adds, a.type = .add)
    (hdistinct : adds.Pairwise fun earlier later => earlier.orderRef ≠ later.orderRef) :
    ∃ contents, (empty.applyAll adds).liveOrders.Represents contents ∧
      ∀ ref o, contents ref = some o ↔ ∃ a ∈ adds, a.orderRef = ref ∧ a.entered = o := by
  induction adds using List.reverseRecOn with
  | nil => exact ⟨_, FlatOrderMap.empty_represents, fun ref o => by simp⟩
  | append_singleton adds a ih =>
    rw [List.pairwise_append] at hdistinct
    have hnew : ∀ a' ∈ adds, a'.orderRef ≠ a.orderRef :=
      fun a' ha' => hdistinct.2.2 a' ha' a (List.mem_singleton_self a)
    have hlast : a.type = .add := hadds a (List.mem_append_right _ (List.mem_singleton_self a))
    obtain ⟨contents, hrep, hcontents⟩ :=
      ih (fun x hx => hadds x (List.mem_append_left _ hx)) hdistinct.1
    have habsent : contents a.orderRef = none := by
      refine Option.eq_none_iff_forall_ne_some.mpr fun o ho => ?_
      obtain ⟨a', ha', href, -⟩ := (hcontents _ _).mp ho
      exact hnew a' ha' href
    refine ⟨Function.update contents a.orderRef (some a.entered), ?_, fun ref o => ?_⟩
    · rw [applyAll_snoc, apply, hlast]
      simp only [handleAdd_liveOrders]
      exact hrep.insert (hrep.insertInPlace_of_absent habsent)
    · by_cases href : ref = a.orderRef
      · rw [href, Function.update_self, Option.some_inj]
        constructor
        · rintro rfl
          exact ⟨a, List.mem_append_right _ (List.mem_singleton_self a), rfl, rfl⟩
        · rintro ⟨a', ha', href', rfl⟩
          rcases List.mem_append.mp ha' with hold | hlast'
          · exact absurd href' (hnew a' hold)
          · rw [List.mem_singleton.mp hlast']
      · rw [Function.update_of_ne href, hcontents]
        refine exists_congr fun a' => and_congr_left fun h => ?_
        rw [List.mem_append, List.mem_singleton, or_iff_left_of_imp]
        rintro rfl
        exact absurd h.1.symm href

/-- The best bid of added orders is the highest bid among them. -/
structure BidIsHighest (b : OrderBook) (adds : List DecodedOrder) : Prop where
  bounds : ∀ a ∈ adds, a.side = sideBuy → a.price ≤ b.bestBid
  attained : b.bestBid ≠ 0 → ∃ a ∈ adds, a.side = sideBuy ∧ a.price = b.bestBid

/-- The best ask of added orders is the lowest ask among them. -/
structure AskIsLowest (b : OrderBook) (adds : List DecodedOrder) : Prop where
  bounds : ∀ a ∈ adds, a.side ≠ sideBuy → b.bestAsk ≠ 0 ∧ b.bestAsk ≤ a.price
  attained : b.bestAsk ≠ 0 → ∃ a ∈ adds, a.side ≠ sideBuy ∧ a.price = b.bestAsk

theorem handleAdd_bestBid (b : OrderBook) (m : DecodedOrder) : (b.handleAdd m).bestBid =
    if m.side = sideBuy ∧ m.price > b.bestBid then m.price else b.bestBid := by
  unfold handleAdd addLevel improveBbo countBboChange bestBid
  by_cases hside : m.side = sideBuy
  · simp only [hside, beq_self_eq_true, if_true, true_and]
    split <;> rfl
  · simp only [beq_eq_false_iff_ne.mpr hside, Bool.false_eq_true, if_false, hside, false_and]
    split <;> rfl

theorem handleAdd_bestAsk (b : OrderBook) (m : DecodedOrder) : (b.handleAdd m).bestAsk =
    if m.side ≠ sideBuy ∧ (b.bestAsk = 0 ∨ m.price < b.bestAsk) then m.price else b.bestAsk := by
  unfold handleAdd addLevel improveBbo countBboChange bestAsk
  by_cases hside : m.side = sideBuy
  · simp only [hside, beq_self_eq_true, if_true, ne_eq, not_true, false_and, if_false]
    split <;> rfl
  · simp only [beq_eq_false_iff_ne.mpr hside, Bool.false_eq_true, if_false, ne_eq, hside,
      not_false_iff, true_and, Bool.or_eq_true, beq_iff_eq, decide_eq_true_eq]
    split <;> rfl

/-- An Add keeps the best bid the highest. -/
theorem BidIsHighest.handleAdd {b : OrderBook} (h : BidIsHighest b adds) (a : DecodedOrder) :
    BidIsHighest (b.handleAdd a) (adds ++ [a]) := by
  constructor
  · intro a' ha' hside
    rw [handleAdd_bestBid]
    rcases List.mem_append.mp ha' with hold | hnew
    · have hle := h.bounds a' hold hside
      split
      case isTrue hbetter => exact UInt32.le_trans hle (UInt32.le_of_lt hbetter.2)
      case isFalse => exact hle
    · obtain rfl := List.mem_singleton.mp hnew
      split
      case isTrue => exact UInt32.le_refl _
      case isFalse hworse => exact UInt32.not_lt.mp fun hlt => hworse ⟨hside, hlt⟩
  · rw [handleAdd_bestBid]
    split
    case isTrue hbetter =>
      exact fun _ => ⟨a, List.mem_append_right _ (List.mem_singleton_self a), hbetter.1, rfl⟩
    case isFalse =>
      intro hne
      obtain ⟨a', ha', hboth⟩ := h.attained hne
      exact ⟨a', List.mem_append_left _ ha', hboth⟩

/-- An Add with a price keeps the best ask the lowest; the price 0 would read as no ask. -/
theorem AskIsLowest.handleAdd {b : OrderBook} (h : AskIsLowest b adds) {a : DecodedOrder}
    (hprice : a.price ≠ 0) : AskIsLowest (b.handleAdd a) (adds ++ [a]) := by
  constructor
  · intro a' ha' hside
    rw [handleAdd_bestAsk]
    rcases List.mem_append.mp ha' with hold | hnew
    · obtain ⟨hne, hle⟩ := h.bounds a' hold hside
      split
      case isTrue hbetter =>
        exact ⟨hprice, UInt32.le_trans (UInt32.le_of_lt (hbetter.2.resolve_left hne)) hle⟩
      case isFalse => exact ⟨hne, hle⟩
    · obtain rfl := List.mem_singleton.mp hnew
      split
      case isTrue => exact ⟨hprice, UInt32.le_refl _⟩
      case isFalse hworse =>
        have hnot := not_or.mp fun hbetter => hworse ⟨hside, hbetter⟩
        exact ⟨hnot.1, UInt32.not_lt.mp hnot.2⟩
  · rw [handleAdd_bestAsk]
    split
    case isTrue hbetter =>
      exact fun _ => ⟨a, List.mem_append_right _ (List.mem_singleton_self a), hbetter.1, rfl⟩
    case isFalse =>
      intro hne
      obtain ⟨a', ha', hboth⟩ := h.attained hne
      exact ⟨a', List.mem_append_left _ ha', hboth⟩

theorem bidIsHighest_adds (hadds : ∀ a ∈ adds, a.type = .add) :
    BidIsHighest (empty.applyAll adds) adds := by
  induction adds using List.reverseRecOn with
  | nil => exact ⟨fun a ha => (by cases ha), fun hne => absurd rfl hne⟩
  | append_singleton adds a ih =>
    have hlast : a.type = .add := hadds a (List.mem_append_right _ (List.mem_singleton_self a))
    rw [applyAll_snoc, apply, hlast]
    exact (ih fun x hx => hadds x (List.mem_append_left _ hx)).handleAdd a

theorem askIsLowest_adds (hadds : ∀ a ∈ adds, a.type = .add) (hprices : ∀ a ∈ adds, a.price ≠ 0) :
    AskIsLowest (empty.applyAll adds) adds := by
  induction adds using List.reverseRecOn with
  | nil => exact ⟨fun a ha => (by cases ha), fun hne => absurd rfl hne⟩
  | append_singleton adds a ih =>
    have hmem : a ∈ adds ++ [a] := List.mem_append_right _ (List.mem_singleton_self a)
    rw [applyAll_snoc, apply, hadds a hmem]
    exact (ih (fun x hx => hadds x (List.mem_append_left _ hx))
      fun x hx => hprices x (List.mem_append_left _ hx)).handleAdd (hprices a hmem)

end Adds

/-! ## The book of unrelated messages -/

/-- Unrelated messages leave the book of their Adds, with the other messages counted. -/
theorem applyAll_of_unrelated {messages : List DecodedOrder} (h : Unrelated messages) :
    empty.applyAll messages = (empty.applyAll (addsOf messages)).withCounts
      (countOf .execute messages) (countOf .delete messages) (countOf .replace messages) := by
  induction messages using List.reverseRecOn with
  | nil => rfl
  | append_singleton messages m ih =>
    obtain ⟨hbefore, -, hlast⟩ := List.pairwise_append.mp h
    rw [applyAll_snoc, ih hbefore, addsOf_snoc, countOf_snoc, countOf_snoc, countOf_snoc]
    by_cases hadd : m.type = .add
    · have hexecute : m.type ≠ .execute := by rw [hadd]; exact OrderType.noConfusion
      have hdelete : m.type ≠ .delete := by rw [hadd]; exact OrderType.noConfusion
      have hreplace : m.type ≠ .replace := by rw [hadd]; exact OrderType.noConfusion
      rw [if_pos hadd, if_neg hexecute, if_neg hdelete, if_neg hreplace, applyAll_snoc, apply, apply,
        hadd]
      exact handleAdd_withCounts _ _ _ _ _
    · -- no Add carries the reference, so it is not found
      have habsent : (empty.applyAll (addsOf messages)).liveOrders.find m.orderRef = none := by
        by_contra hfound
        have hlookup : (empty.applyAll (addsOf messages)).liveOrders.lookup m.orderRef ≠ none := by
          rwa [FlatOrderMap.lookup, Ne.eq_def, Option.map_eq_none_iff]
        obtain ⟨a, ha, href⟩ := exists_add_of_lookup (fun a ha => (mem_addsOf.mp ha).2) hlookup
        obtain ⟨hmem, htype⟩ := mem_addsOf.mp ha
        exact hlast a hmem m (List.mem_singleton_self m) htype hadd href.symm
      rw [if_neg hadd]
      exact apply_of_absent hadd habsent

/-- The book holds the added orders, untouched, behind the counters of the other messages. -/
structure HoldsAdds (b : OrderBook) (messages : List DecodedOrder) : Prop where
  book : b = (empty.applyAll (addsOf messages)).withCounts (countOf .execute messages)
    (countOf .delete messages) (countOf .replace messages)
  live : ∀ ref o, b.liveOrders.lookup ref = some o ↔
    ∃ a ∈ addsOf messages, a.orderRef = ref ∧ a.entered = o
  bid : BidIsHighest b (addsOf messages)
  ask : AskIsLowest b (addsOf messages)

/-- Unrelated messages leave every added order resting with all its shares, and the best prices
are the highest bid and the lowest ask that were added, whether or not the level arrays had room
for them. -/
theorem unrelated_holdsAdds {messages : List DecodedOrder} (h : Unrelated messages)
    (hdistinct : DistinctAdds messages) (hprices : ∀ a ∈ addsOf messages, a.price ≠ 0) :
    HoldsAdds (empty.applyAll messages) messages := by
  have hadds : ∀ a ∈ addsOf messages, a.type = .add := fun a ha => (mem_addsOf.mp ha).2
  have hbook := applyAll_of_unrelated h
  refine ⟨hbook, fun ref o => ?_, ?_, ?_⟩
  · obtain ⟨contents, hrep, hcontents⟩ := lookup_adds_iff hadds hdistinct
    rw [← hcontents, ← hrep.lookup_eq, hbook]
    rfl
  · rw [hbook]
    exact ⟨(bidIsHighest_adds hadds).bounds, (bidIsHighest_adds hadds).attained⟩
  · rw [hbook]
    exact ⟨(askIsLowest_adds hadds hprices).bounds, (askIsLowest_adds hadds hprices).attained⟩

/-- A bid, an execution of a reference that nobody added, and an offer. -/
def strangersBetween : List DecodedOrder :=
  [⟨.add, 1, 0, 100, 50, sideBuy, 0⟩, ⟨.execute, 5, 0, 0, 20, 0, 0⟩, ⟨.add, 2, 0, 101, 30, sideSell, 0⟩]

theorem strangersBetween_holdsAdds :
    HoldsAdds (empty.applyAll strangersBetween) strangersBetween :=
  unrelated_holdsAdds (by unfold Unrelated; decide) (by unfold DistinctAdds; decide) (by decide)

end OrderBook

end NanoRing
