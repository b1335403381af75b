import NanoRing.Book.SymbolBooks
import NanoRing.Feed.ItchRoundTrip

/-!
# From bytes to books

Execute, Delete and Replace messages carry no symbol: they belong to the symbol under which
the order that they refer to was added. The decoder gives all of them the ticker key `0`,
so the manager applies them to the book of that key. The books of the symbols are therefore
right exactly when every such message belongs to the symbol of key `0`.
-/

namespace NanoRing

open Framing SimdDecoder Feed

/-- The symbol under which each order reference was last made live. -/
abbrev Owners := UInt64 → Option UInt64

namespace Owners

/-- An Add makes its reference live under its own symbol, a Replace its new reference under the
symbol of the replaced order. -/
def step (owners : Owners) (order : DecodedOrder) : Owners :=
  match order.type with
  | .add => Function.update owners order.orderRef (some order.tickerKey)
  | .replace => Function.update owners order.newOrderRef (owners order.orderRef)
  | .execute | .delete => owners

/-- The symbol that a message belongs to, if the order it refers to was made live before. -/
def symbolOf (owners : Owners) (order : DecodedOrder) : Option UInt64 :=
  match order.type with
  | .add => some order.tickerKey
  | .execute | .delete | .replace => owners order.orderRef

/-- The messages of a list with the symbols that they belong to. -/
def tag : Owners → List DecodedOrder → List (Option UInt64 × DecodedOrder)
  | _, [] => []
  | owners, order :: rest => (owners.symbolOf order, order) :: tag (owners.step order) rest

end Owners

/-- The messages of a feed with their symbols. -/
def tagged (orders : List DecodedOrder) : List (Option UInt64 × DecodedOrder) :=
  Owners.tag (fun _ => none) orders

/-- The messages that belong to a symbol, in order. -/
def belonging (orders : List DecodedOrder) (k : UInt64) : List DecodedOrder :=
  ((tagged orders).filter fun t => t.1 == some k).map Prod.snd

/-- The symbols that Add messages carry. -/
def addedSymbols (orders : List DecodedOrder) : List UInt64 :=
  distinctKeys (orders.filter fun order => order.type == .add)

/-- Every Execute, Delete and Replace refers to an order that was made live before it. -/
def Referenced (orders : List DecodedOrder) : Prop := ∀ t ∈ tagged orders, t.1 ≠ none

/-- The manager has the book of each added symbol, and no other book. -/
def BooksMatch (m : ShardedBookManager) (orders : List DecodedOrder) : Prop :=
  ∀ k, m.getBook k =
    if k ∈ addedSymbols orders then some (OrderBook.empty.applyAll (belonging orders k)) else none

instance (orders : List DecodedOrder) : Decidable (Referenced orders) :=
  inferInstanceAs (Decidable (∀ t ∈ tagged orders, t.1 ≠ none))

/-! ## Counting messages other than Add -/

/-- The messages other than Add that a book has seen. -/
def Stats.amendments (stats : Stats) : ℕ := stats.executes + stats.deletes + stats.replaces

namespace OrderBook

@[simp] theorem amendments_improveBbo (b : OrderBook) (side : UInt8) (price : UInt32) :
    (b.improveBbo side price).stats.amendments = b.stats.amendments := by
  unfold improveBbo
  split <;> split <;> rfl

@[simp] theorem amendments_recalculateBbo (b : OrderBook) (side : UInt8) (price : UInt32) :
    (b.recalculateBbo side price).stats.amendments = b.stats.amendments := by
  unfold recalculateBbo
  split
  · rfl
  · split <;> rfl

@[simp] theorem amendments_recalculateBboFull (b : OrderBook) :
    b.recalculateBboFull.stats.amendments = b.stats.amendments := rfl

theorem amendments_handleAdd (b : OrderBook) (order : DecodedOrder) :
    (b.handleAdd order).stats.amendments = b.stats.amendments := by
  simp only [handleAdd, amendments_improveBbo, addLevel_stats]
  rfl

theorem amendments_handleExecute (b : OrderBook) (order : DecodedOrder) :
    (b.handleExecute order).stats.amendments = b.stats.amendments + 1 := by
  unfold handleExecute
  dsimp only
  split
  · simp only [Stats.amendments]
    omega
  · rename_i idx _
    generalize (if order.shares > (b.liveOrders.slots idx).remainingShares then
      (b.liveOrders.slots idx).remainingShares else order.shares) = execShares
    split
    · simp only [amendments_recalculateBbo, removeLevel_stats]
      simp only [Stats.amendments]
      omega
    · simp only [removeLevel_stats, Stats.amendments]
      omega

theorem amendments_handleDelete (b : OrderBook) (order : DecodedOrder) :
    (b.handleDelete order).stats.amendments = b.stats.amendments + 1 := by
  unfold handleDelete
  dsimp only
  split
  · simp only [Stats.amendments]
    omega
  · simp only [amendments_recalculateBbo, removeLevel_stats]
    simp only [Stats.amendments]
    omega

theorem amendments_handleReplace (b : OrderBook) (order : DecodedOrder) :
    (b.handleReplace order).stats.amendments = b.stats.amendments + 1 := by
  unfold handleReplace
  dsimp only
  split
  · simp only [Stats.amendments]
    omega
  · simp only [amendments_recalculateBboFull, addLevel_stats, removeLevel_stats]
    simp only [Stats.amendments]
    omega

/-- A book counts each message other than Add once. -/
theorem amendments_apply (b : OrderBook) (order : DecodedOrder) :
    (b.apply order).stats.amendments =
      b.stats.amendments + if order.type = .add then 0 else 1 := by
  unfold apply
  cases order.type with
  | add => exact amendments_handleAdd b order
  | execute => exact amendments_handleExecute b order
  | delete => exact amendments_handleDelete b order
  | replace => exact amendments_handleReplace b order

/-- After a list of messages the book has counted those other than Add. -/
theorem amendments_applyAll (orders : List DecodedOrder) :
    (empty.applyAll orders).stats.amendments =
      orders.countP fun order => order.type ≠ .add := by
  induction orders using List.reverseRecOn with
  | nil => rfl
  | append_singleton orders order ih =>
    rw [applyAll_snoc, amendments_apply, ih, List.countP_append]
    by_cases htype : order.type = .add <;> simp [htype]

end OrderBook

/-! ## The symbols of a feed -/

section Feed

variable {orders : List DecodedOrder} {owners : Owners}

/-- The symbol of a live reference is that of an Add message or was the symbol of a reference
before. -/
theorem Owners.step_eq_some {order : DecodedOrder} {ref k : UInt64}
    (h : owners.step order ref = some k) :
    (order.type = .add ∧ order.tickerKey = k) ∨ ∃ ref', owners ref' = some k := by
  cases htype : order.type with
  | add =>
    simp only [Owners.step, htype] at h
    by_cases href : ref = order.orderRef
    · rw [href, Function.update_self] at h
      exact Or.inl ⟨rfl, Option.some.inj h⟩
    · rw [Function.update_of_ne href] at h
      exact Or.inr ⟨ref, h⟩
  | execute =>
    simp only [Owners.step, htype] at h
    exact Or.inr ⟨ref, h⟩
  | delete =>
    simp only [Owners.step, htype] at h
    exact Or.inr ⟨ref, h⟩
  | replace =>
    simp only [Owners.step, htype] at h
    by_cases href : ref = order.newOrderRef
    · rw [href, Function.update_self] at h
      exact Or.inr ⟨order.orderRef, h⟩
    · rw [Function.update_of_ne href] at h
      exact Or.inr ⟨ref, h⟩

theorem map_snd_tag (owners : Owners) (orders : List DecodedOrder) :
    (Owners.tag owners orders).map Prod.snd = orders := by
  induction orders generalizing owners with
  | nil => rfl
  | cons order rest ih => rw [Owners.tag, List.map_cons, ih]

/-- Every symbol that a message belongs to comes from an Add message or from before the list. -/
theorem symbol_of_tag {P : UInt64 → Prop} (howners : ∀ ref k, owners ref = some k → P k)
    (hadds : ∀ order ∈ orders, order.type = .add → P order.tickerKey) :
    ∀ t ∈ Owners.tag owners orders, ∀ k, t.1 = some k → P k := by
  induction orders generalizing owners with
  | nil => intro t ht; contradiction
  | cons order rest ih =>
    intro t ht k hk
    have hrest (o : DecodedOrder) (ho : o ∈ rest) (htype : o.type = .add) : P o.tickerKey :=
      hadds o (List.mem_cons_of_mem order ho) htype
    rcases List.mem_cons.mp ht with rfl | ht
    · -- the symbol of the first message
      unfold Owners.symbolOf at hk
      cases htype : order.type <;> rw [htype] at hk
      · exact Option.some.inj hk ▸ hadds order List.mem_cons_self htype
      all_goals exact howners order.orderRef k hk
    · -- the symbols after it
      refine ih (fun ref j hj => ?_) hrest t ht k hk
      rcases Owners.step_eq_some hj with ⟨htype, rfl⟩ | ⟨ref', hold⟩
      · exact hadds order List.mem_cons_self htype
      · exact howners ref' j hold

/-- A message belongs to a symbol that some Add message carries. -/
theorem mem_addedSymbols_of_tagged {t : Option UInt64 × DecodedOrder} (ht : t ∈ tagged orders)
    {k : UInt64} (hk : t.1 = some k) : k ∈ addedSymbols orders := by
  refine symbol_of_tag (fun _ _ h => by cases h) (fun order horder htype => ?_) t ht k hk
  exact mem_distinctKeys.mpr ⟨order, List.mem_filter.mpr ⟨horder, beq_iff_eq.mpr htype⟩, rfl⟩

/-- The messages of a feed, without their symbols, are the feed. -/
theorem mem_of_tagged {t : Option UInt64 × DecodedOrder} (ht : t ∈ tagged orders) :
    t.2 ∈ orders := by
  have hmem := List.mem_map_of_mem (f := Prod.snd) ht
  rwa [tagged, map_snd_tag] at hmem

/-- An Add message belongs to the symbol that it carries. -/
theorem symbol_of_add (owners : Owners) :
    ∀ t ∈ Owners.tag owners orders, t.2.type = .add → t.1 = some t.2.tickerKey := by
  induction orders generalizing owners with
  | nil => intro t ht; contradiction
  | cons order rest ih =>
    intro t ht htype
    rcases List.mem_cons.mp ht with rfl | ht
    · change owners.symbolOf order = some order.tickerKey
      rw [Owners.symbolOf, htype]
    · exact ih (owners.step order) t ht htype

/-- Every message is a message of the feed with some symbol. -/
theorem exists_tagged {order : DecodedOrder} (h : order ∈ orders) :
    ∃ symbol, (symbol, order) ∈ tagged orders := by
  rw [← map_snd_tag (fun _ => none) orders] at h
  obtain ⟨⟨symbol, _⟩, ht, rfl⟩ := List.mem_map.mp h
  exact ⟨symbol, ht⟩

/-- In a feed whose other messages carry the key `0`, a manager with the right books has applied
them all to the book that they belong to. -/
theorem zero_of_booksMatch (hzero : ∀ order ∈ orders, order.type ≠ .add → order.tickerKey = 0)
    (hrefs : Referenced orders)
    (hmatch : BooksMatch (ShardedBookManager.empty.applyAll orders) orders) :
    ∀ t ∈ tagged orders, t.2.type ≠ .add → t.1 = some 0 := by
  intro t ht htype
  obtain ⟨k, hk⟩ := Option.ne_none_iff_exists'.mp (hrefs t ht)
  by_contra hne
  have hk0 : k ≠ 0 := fun h => hne (h ▸ hk)
  have hbook := hmatch k
  rw [if_pos (mem_addedSymbols_of_tagged ht hk),
    (ShardedBookManager.applyAll_serves orders).getBook_eq] at hbook
  split at hbook
  · -- the book of `k` has seen Add messages only
    have hcount := congrArg (fun b => b.stats.amendments) (Option.some.inj hbook)
    rw [OrderBook.amendments_applyAll, OrderBook.amendments_applyAll, eq_comm] at hcount
    have hnone : (messagesOf orders k).countP (fun order => order.type ≠ .add) = 0 := by
      refine List.countP_eq_zero.mpr fun order horder hother => ?_
      obtain ⟨hmem, hkey⟩ := List.mem_filter.mp horder
      exact hk0 ((beq_iff_eq.mp hkey).symm.trans (hzero order hmem (of_decide_eq_true hother)))
    have hsome : 0 < (belonging orders k).countP (fun order => order.type ≠ .add) := by
      refine List.countP_pos_iff.mpr ⟨t.2, ?_, decide_eq_true htype⟩
      exact List.mem_map_of_mem (List.mem_filter.mpr ⟨ht, beq_iff_eq.mpr hk⟩)
    omega
  · contradiction

/-- Where every message belongs to the symbol of its key, a symbol owns the messages of its key. -/
theorem belonging_eq_messagesOf (hown : ∀ t ∈ tagged orders, t.1 = some t.2.tickerKey) (k : UInt64) :
    belonging orders k = messagesOf orders k := by
  have hsame : (tagged orders).filter (fun t => t.1 == some k) =
      (tagged orders).filter ((fun order => order.tickerKey == k) ∘ Prod.snd) := by
    refine List.filter_congr fun t ht => ?_
    rw [hown t ht]
    rfl
  rw [belonging, hsame, ← List.filter_map, tagged, map_snd_tag, messagesOf]

theorem mem_distinctKeys_iff_added (hown : ∀ t ∈ tagged orders, t.1 = some t.2.tickerKey)
    (k : UInt64) : k ∈ distinctKeys orders ↔ k ∈ addedSymbols orders := by
  constructor
  · intro hk
    obtain ⟨order, horder, rfl⟩ := mem_distinctKeys.mp hk
    obtain ⟨symbol, ht⟩ := exists_tagged horder
    exact mem_addedSymbols_of_tagged ht (hown _ ht)
  · intro hk
    obtain ⟨order, horder, rfl⟩ := mem_distinctKeys.mp hk
    exact mem_distinctKeys.mpr ⟨order, List.mem_of_mem_filter horder, rfl⟩

/-- Where every message belongs to the symbol of its key, the manager has the right books. -/
theorem booksMatch_of_own (hown : ∀ t ∈ tagged orders, t.1 = some t.2.tickerKey)
    (hsymbols : (addedSymbols orders).length ≤ 512) :
    BooksMatch (ShardedBookManager.empty.applyAll orders) orders := by
  have hkeys := mem_distinctKeys_iff_added hown
  have hcap : (distinctKeys orders).length ≤ ShardedBookManager.maxSymbolsPerShard :=
    (List.subperm_of_subset (nodup_distinctKeys orders) fun k hk => (hkeys k).mp hk).length_le.trans
      hsymbols
  intro k
  rw [(ShardedBookManager.applyAll_serves orders).getBook_eq,
    ShardedBookManager.firstKeys_of_le hcap, belonging_eq_messagesOf hown]
  simp only [hkeys]

/-- In a feed whose other messages carry the key `0`, the manager has the right books exactly
when all of these belong to the symbol of key `0`. -/
theorem booksMatch_iff (hzero : ∀ order ∈ orders, order.type ≠ .add → order.tickerKey = 0)
    (hrefs : Referenced orders) (hsymbols : (addedSymbols orders).length ≤ 512) :
    BooksMatch (ShardedBookManager.empty.applyAll orders) orders ↔
      ∀ t ∈ tagged orders, t.2.type ≠ .add → t.1 = some 0 := by
  refine ⟨zero_of_booksMatch hzero hrefs, fun hall => booksMatch_of_own (fun t ht => ?_) hsymbols⟩
  by_cases htype : t.2.type = .add
  · exact symbol_of_add _ t ht htype
  · rw [hall t ht htype, hzero t.2 (mem_of_tagged ht) htype]

/-- Only Add messages carry a symbol. -/
theorem tickerKey_of_orderOf {payload : List UInt8} {order : DecodedOrder}
    (h : Feed.orderOf payload = some order) (htype : order.type ≠ .add) : order.tickerKey = 0 := by
  cases payload with
  | nil => contradiction
  | cons kind tail => grind [Feed.orderOf, addOrder, deleteOrder, executeOrder, replaceOrder]

/-- The books that the manager builds from the decoder's output are right exactly when every
Execute, Delete and Replace of the stream refers to an order of the symbol of key `0`. -/
theorem decoded_booksMatch_iff {stream : List UInt8} {frames : List (List UInt8)} {rest : List UInt8}
    (hsplits : Splits stream frames rest) {maxOutput : ℕ} (hroom : frames.length ≤ maxOutput)
    (hrefs : Referenced (frames.filterMap Feed.orderOf))
    (hsymbols : (addedSymbols (frames.filterMap Feed.orderOf)).length ≤ 512) :
    (∃ orders, decodeStream stream maxOutput = some orders ∧
      BooksMatch (ShardedBookManager.empty.applyAll orders) (frames.filterMap Feed.orderOf)) ↔
      ∀ t ∈ tagged (frames.filterMap Feed.orderOf), t.2.type ≠ .add → t.1 = some 0 := by
  have hall : (frames.filterMap Feed.orderOf).take maxOutput = frames.filterMap Feed.orderOf :=
    List.take_of_length_le ((List.length_filterMap_le Feed.orderOf frames).trans hroom)
  rw [decodeStream_of_splits hsplits, hall]
  simp only [Option.some.injEq, exists_eq_left']
  refine booksMatch_iff (fun order horder htype => ?_) hrefs hsymbols
  obtain ⟨payload, -, hpayload⟩ := List.mem_filterMap.mp horder
  exact tickerKey_of_orderOf hpayload htype

/-- The symbol of eight zero bytes. -/
def zeroStock : ItchStock := ⟨List.replicate 8 0, rfl⟩

/-- An order of the symbol of key `0` is added and deleted. -/
theorem zeroStock_booksMatch :
    ∃ orders, decodeStream (ItchMessage.encodeStream
        [.add ⟨0, 0, 0⟩ 1 sideBuy 100 zeroStock 500, .delete ⟨0, 0, 0⟩ 1]) 2 = some orders ∧
      BooksMatch (ShardedBookManager.empty.applyAll orders) (List.filterMap Feed.orderOf
        (List.map ItchMessage.encode
          [.add ⟨0, 0, 0⟩ 1 sideBuy 100 zeroStock 500, .delete ⟨0, 0, 0⟩ 1])) :=
  (decoded_booksMatch_iff (splits_encodeStream _) (by decide) (by decide +kernel)
    (by decide +kernel)).mpr (by decide +kernel)

/-- An order of AAPL is added and deleted. -/
def appleFeed : List ItchMessage :=
  [.add ⟨0, 0, 0⟩ 1 sideBuy 100 appleStock 500, .delete ⟨0, 0, 0⟩ 1]

/-- The messages of `appleFeed`, as the decoder returns them. -/
def appleOrders : List DecodedOrder := (appleFeed.map ItchMessage.encode).filterMap Feed.orderOf

/-- The deletion goes to the book of key `0`: the stream is well formed and has one symbol, but the
book of AAPL keeps the bid level that it should have lost, and the books do not match. -/
theorem appleFeed_not_booksMatch :
    (Splits (ItchMessage.encodeStream appleFeed) (appleFeed.map ItchMessage.encode) [] ∧
      Referenced appleOrders ∧ addedSymbols appleOrders = [0x202020204c504141]) ∧
    ((ShardedBookManager.empty.applyAll appleOrders).getBook 0x202020204c504141).map
      OrderBook.bidDepth = some 1 ∧
    (OrderBook.empty.applyAll (belonging appleOrders 0x202020204c504141)).bidDepth = 0 ∧
    ¬ ∃ orders, decodeStream (ItchMessage.encodeStream appleFeed) 2 = some orders ∧
      BooksMatch (ShardedBookManager.empty.applyAll orders) appleOrders := by
  have hsplits := splits_encodeStream appleFeed
  have hkept : ((ShardedBookManager.empty.applyAll appleOrders).getBook 0x202020204c504141).map
      OrderBook.bidDepth = some 1 := by decide +kernel
  have hlost : (OrderBook.empty.applyAll
      (belonging appleOrders 0x202020204c504141)).bidDepth = 0 := by decide +kernel
  refine ⟨⟨hsplits, by decide +kernel, by decide +kernel⟩, hkept, hlost,
    fun ⟨orders, horders, hmatch⟩ => ?_⟩
  have hdecoded : orders = appleOrders := by
    rw [decodeStream_of_splits hsplits] at horders
    exact (Option.some.inj horders).symm
  rw [hdecoded] at hmatch
  rw [hmatch, if_pos (by decide +kernel), Option.map_some, hlost] at hkept
  contradiction

end Feed

end NanoRing
