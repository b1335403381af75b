import NanoRing.Book.SymbolTable
import Mathlib.Data.List.Infix
import Mathlib.Data.List.Nodup

/-!
# The manager as a family of independent books

The first 512 distinct ticker keys of a list of messages have a book each, which has seen
exactly the messages of its key; the manager ignores every other message. The induction is over
the list from its end, and a step is one of the outcomes of the insertion loop.
-/

namespace NanoRing

/-- The distinct ticker keys of a list of messages, in order of first appearance. -/
def distinctKeys (messages : List DecodedOrder) : List UInt64 :=
  (messages.map DecodedOrder.tickerKey).eraseDups

/-- The messages of one ticker key, in order. -/
def messagesOf (messages : List DecodedOrder) (k : UInt64) : List DecodedOrder :=
  messages.filter fun order => order.tickerKey == k

theorem mem_distinctKeys {messages : List DecodedOrder} {k : UInt64} :
    k ∈ distinctKeys messages ↔ ∃ order ∈ messages, order.tickerKey = k := by
  rw [distinctKeys, List.mem_eraseDups, List.mem_map]

theorem distinctKeys_snoc (messages : List DecodedOrder) (order : DecodedOrder) :
    distinctKeys (messages ++ [order]) =
      if order.tickerKey ∈ distinctKeys messages then distinctKeys messages
      else distinctKeys messages ++ [order.tickerKey] := by
  by_cases hold : order.tickerKey ∈ distinctKeys messages
  · rw [if_pos hold]
    rw [distinctKeys, List.mem_eraseDups, ← List.contains_iff_mem] at hold
    rw [distinctKeys, List.map_append, List.eraseDups_append, List.map_cons, List.map_nil,
      List.cons_removeAll, hold]
    simp [distinctKeys]
  · rw [if_neg hold]
    rw [distinctKeys, List.mem_eraseDups, ← List.contains_iff_mem, Bool.not_eq_true] at hold
    rw [distinctKeys, List.map_append, List.eraseDups_append, List.map_cons, List.map_nil,
      List.cons_removeAll, hold]
    simp [distinctKeys, List.eraseDups_cons]

/-- Every key is listed once. -/
theorem nodup_distinctKeys (messages : List DecodedOrder) : (distinctKeys messages).Nodup := by
  induction messages using List.reverseRecOn with
  | nil => exact List.nodup_nil
  | append_singleton messages order ih =>
    rw [distinctKeys_snoc]
    split
    · exact ih
    · rename_i hnew
      rw [← List.concat_eq_append]
      exact List.Nodup.concat hnew ih

theorem messagesOf_snoc (messages : List DecodedOrder) (order : DecodedOrder) (k : UInt64) :
    messagesOf (messages ++ [order]) k =
      if order.tickerKey = k then messagesOf messages k ++ [order] else messagesOf messages k := by
  rw [messagesOf, List.filter_append]
  by_cases hkey : order.tickerKey = k <;> simp [messagesOf, hkey]

/-- A key that does not appear has no messages. -/
theorem messagesOf_of_notMem {messages : List DecodedOrder} {k : UInt64}
    (h : k ∉ distinctKeys messages) : messagesOf messages k = [] := by
  rw [messagesOf, List.filter_eq_nil_iff]
  intro order horder hkey
  exact h (mem_distinctKeys.mpr ⟨order, horder, beq_iff_eq.mp hkey⟩)

namespace ShardedBookManager

/-- The ticker keys that have a book after a list of messages. -/
def firstKeys (messages : List DecodedOrder) : List UInt64 :=
  (distinctKeys messages).take maxSymbolsPerShard

/-- While books are left, every key that appears has one. -/
theorem firstKeys_of_lt {messages : List DecodedOrder}
    (h : (firstKeys messages).length < maxSymbolsPerShard) :
    firstKeys messages = distinctKeys messages := by
  rw [firstKeys, List.length_take] at h
  exact List.take_of_length_le (by omega)

/-- A message adds its key unless the key has a book or no book is left. -/
theorem firstKeys_snoc (messages : List DecodedOrder) (order : DecodedOrder) :
    firstKeys (messages ++ [order]) =
      if order.tickerKey ∈ firstKeys messages ∨ (firstKeys messages).length = maxSymbolsPerShard
      then firstKeys messages else firstKeys messages ++ [order.tickerKey] := by
  rw [firstKeys, distinctKeys_snoc]
  by_cases hold : order.tickerKey ∈ distinctKeys messages
  · have hstop : order.tickerKey ∈ firstKeys messages ∨
        (firstKeys messages).length = maxSymbolsPerShard := by
      rcases Nat.lt_or_ge (firstKeys messages).length maxSymbolsPerShard with hlt | hge
      · exact Or.inl (firstKeys_of_lt hlt ▸ hold)
      · exact Or.inr (Nat.le_antisymm (List.length_take_le _ _) hge)
    rw [if_pos hold, if_pos hstop, firstKeys]
  · have hnew : order.tickerKey ∉ firstKeys messages := fun h => hold (List.mem_of_mem_take h)
    rw [if_neg hold]
    rcases Nat.lt_or_ge (distinctKeys messages).length maxSymbolsPerShard with hlt | hge
    · have hall : firstKeys messages = distinctKeys messages := List.take_of_length_le hlt.le
      rw [if_neg (not_or.mpr ⟨hnew, by rw [hall]; exact hlt.ne⟩), hall, List.take_of_length_le]
      rw [List.length_append, List.length_singleton]
      exact hlt
    · have hfull : (firstKeys messages).length = maxSymbolsPerShard := by
        rw [firstKeys, List.length_take, Nat.min_eq_left hge]
      rw [if_pos (Or.inr hfull), List.take_append_of_le_length hge, firstKeys]

/-- Each of the keys has the book of its own messages, and no other message was counted. -/
structure Serves (m : ShardedBookManager) (keys : List UInt64) (messages : List DecodedOrder) :
    Prop where
  assigns : m.Assigns keys
  book : ∀ v k, keys[v]? = some k → m.books v = OrderBook.empty.applyAll (messagesOf messages k)
  fresh : ∀ v, keys.length ≤ v → m.books v = OrderBook.empty
  total : m.totalMessages = messages.countP fun order => order.tickerKey ∈ keys

variable {m m' : ShardedBookManager} {keys : List UInt64} {messages : List DecodedOrder}
variable {order : DecodedOrder}

/-- The fresh manager serves no keys. -/
theorem empty_serves : empty.Serves [] [] where
  assigns := empty_assigns
  book := fun v k hv => by cases hv
  fresh := fun _ _ => rfl
  total := rfl

/-- A book index is not the answer of a full map. -/
theorem beq_FULL {v : ℕ} (hv : v < maxSymbolsPerShard) : (v == FULL) = false :=
  beq_eq_false_iff_ne.mpr (hv.trans (by decide : maxSymbolsPerShard < FULL)).ne

/-- The symbol map does not depend on the books. -/
theorem Assigns.with_books (h : m.Assigns keys) (books : ℕ → OrderBook) (total : ℕ) :
    { m with books := books, totalMessages := total }.Assigns keys :=
  ⟨h.probed, h.distinct, h.holds, h.bookCount_eq, h.count_eq, h.bounded⟩

/-- A key has one position in the map. -/
theorem Assigns.position_unique (h : m.Assigns keys) {v w : ℕ} {k : UInt64}
    (hv : keys[v]? = some k) (hw : keys[w]? = some k) : v = w := by
  obtain ⟨i, hi, hcell⟩ := (h.holds k v).mpr hv
  obtain ⟨j, hj, hcell'⟩ := (h.holds k w).mpr hw
  obtain rfl := h.distinct i hi j hj k v w hcell hcell'
  rw [hcell] at hcell'
  cases hcell'
  rfl

/-- A new key starts with an empty book, which is the book of no messages. -/
theorem Serves.admit (h : m.Serves keys messages) {k : UInt64} (hnew : k ∉ distinctKeys messages)
    (hassigns : m'.Assigns (keys ++ [k])) (hbooks : m'.books = m.books)
    (htotal : m'.totalMessages = m.totalMessages) : m'.Serves (keys ++ [k]) messages := by
  refine ⟨hassigns, fun v key hv => ?_, fun v hv => ?_, ?_⟩
  · rw [hbooks]
    rcases Nat.lt_or_ge v keys.length with hlt | hge
    · rw [List.getElem?_append_left hlt] at hv
      exact h.book v key hv
    · obtain rfl : key = k := by
        rw [List.getElem?_append_right hge, List.getElem?_singleton] at hv
        split at hv
        · exact (Option.some.inj hv).symm
        · contradiction
      rw [h.fresh v hge, messagesOf_of_notMem hnew]
      rfl
  · rw [hbooks]
    rw [List.length_append, List.length_singleton] at hv
    exact h.fresh v (by omega)
  · rw [htotal, h.total]
    refine List.countP_congr fun order horder => ?_
    have hne : order.tickerKey ≠ k := fun hk => hnew (mem_distinctKeys.mpr ⟨order, horder, hk⟩)
    simp [hne]

/-- A message of a key with a book goes to that book. -/
theorem Serves.deliver (h : m.Serves keys messages) {v : ℕ} (hv : keys[v]? = some order.tickerKey) :
    { m with
      books := Function.update m.books v ((m.books v).apply order)
      totalMessages := m.totalMessages + 1 }.Serves keys (messages ++ [order]) := by
  refine ⟨h.assigns.with_books _ _, fun w key hw => ?_, fun w hw => ?_, ?_⟩
  · change Function.update m.books v ((m.books v).apply order) w = _
    rw [messagesOf_snoc]
    by_cases hkey : order.tickerKey = key
    · obtain rfl := h.assigns.position_unique hw (hkey ▸ hv)
      rw [Function.update_self, if_pos hkey, OrderBook.applyAll_snoc, h.book w key hw]
    · have hwv : w ≠ v := by
        intro heq
        rw [heq, hv] at hw
        exact hkey (Option.some.inj hw)
      rw [Function.update_of_ne hwv, if_neg hkey, h.book w key hw]
  · have hlt := (List.getElem?_eq_some_iff.mp hv).1
    exact (Function.update_of_ne (by omega) _ _).trans (h.fresh w hw)
  · rw [List.countP_append, ← h.total]
    simp [List.mem_of_getElem? hv]

/-- A message of a key without a book leaves every book as it is. -/
theorem Serves.ignore (h : m.Serves keys messages) (hkey : order.tickerKey ∉ keys) :
    m.Serves keys (messages ++ [order]) := by
  refine ⟨h.assigns, fun v key hv => ?_, h.fresh, ?_⟩
  · have hne : order.tickerKey ≠ key := fun heq => hkey (heq ▸ List.mem_of_getElem? hv)
    rw [messagesOf_snoc, if_neg hne]
    exact h.book v key hv
  · rw [List.countP_append, ← h.total]
    simp [hkey]

/-- A message of a key without a book changes nothing, once all books are taken. -/
theorem Assigns.apply_of_refused (h : m.Assigns keys) (hkey : order.tickerKey ∉ keys)
    (hfull : keys.length = maxSymbolsPerShard) : m.apply order = m := by
  have hfound := h.findOrInsertSymbol_spec order.tickerKey
  unfold apply
  generalize m.findOrInsertSymbol order.tickerKey = answer at hfound
  cases hfound with
  | known v hv => exact absurd (List.mem_of_getElem? hv) hkey
  | added m' _ hroom _ _ _ => omega
  | refused _ _ => rfl

/-- One message keeps every book in step with the messages of its key. -/
theorem Serves.apply (h : m.Serves (firstKeys messages) messages) (order : DecodedOrder) :
    (m.apply order).Serves (firstKeys (messages ++ [order])) (messages ++ [order]) := by
  have hfound := h.assigns.findOrInsertSymbol_spec order.tickerKey
  have hbounded := h.assigns.bounded
  rw [firstKeys_snoc]
  unfold ShardedBookManager.apply
  generalize m.findOrInsertSymbol order.tickerKey = answer at hfound
  cases hfound with
  | known v hv =>
    rw [if_pos (Or.inl (List.mem_of_getElem? hv))]
    have hlt := (List.getElem?_eq_some_iff.mp hv).1
    simp only [beq_FULL (hlt.trans_le hbounded), Bool.false_eq_true, if_false]
    exact h.deliver hv
  | added m' hnew hroom hassigns hbooks htotal =>
    rw [if_neg (not_or.mpr ⟨hnew, hroom.ne⟩)]
    have hadmit := h.admit (firstKeys_of_lt hroom ▸ hnew) hassigns hbooks htotal
    simp only [beq_FULL hroom, Bool.false_eq_true, if_false]
    exact hadmit.deliver List.getElem?_concat_length
  | refused hnew hfull =>
    rw [if_pos (Or.inr hfull)]
    exact h.ignore hnew

/-- After a list of messages the manager serves its first keys. -/
theorem applyAll_serves (messages : List DecodedOrder) :
    (empty.applyAll messages).Serves (firstKeys messages) messages := by
  induction messages using List.reverseRecOn with
  | nil => exact empty_serves
  | append_singleton messages order ih =>
    rw [applyAll_snoc]
    exact ih.apply order

/-! ## What a caller reads off the manager -/

/-- `getBook` returns the book of each first key and null for every other key. -/
theorem Serves.getBook_eq (h : m.Serves keys messages) (k : UInt64) :
    m.getBook k =
      if k ∈ keys then some (OrderBook.empty.applyAll (messagesOf messages k)) else none := by
  by_cases hk : k ∈ keys
  · obtain ⟨v, hv⟩ := List.mem_iff_getElem?.mp hk
    rw [if_pos hk, h.assigns.getBook_eq_some hv, h.book v k hv]
  · rw [if_neg hk, h.assigns.getBook_eq_none hk]

/-- Within the symbol cap, every key that appears has a book. -/
theorem firstKeys_of_le (h : (distinctKeys messages).length ≤ maxSymbolsPerShard) :
    firstKeys messages = distinctKeys messages := List.take_of_length_le h

/-- Within the symbol cap, every message is counted. -/
theorem totalMessages_of_le (h : (distinctKeys messages).length ≤ maxSymbolsPerShard) :
    (empty.applyAll messages).totalMessages = messages.length := by
  rw [(applyAll_serves messages).total, firstKeys_of_le h, List.countP_eq_length]
  intro order horder
  exact decide_eq_true (mem_distinctKeys.mpr ⟨order, horder, rfl⟩)

/-- The manager is a map of independent books: the first 512 distinct keys of any list of
messages have the book of their own messages, all other keys have none, and a message of a
key past the cap changes nothing at all. -/
theorem applyAll_independent_books (messages : List DecodedOrder) :
    (∀ k ∈ (distinctKeys messages).take 512, (empty.applyAll messages).getBook k =
      some (OrderBook.empty.applyAll (messagesOf messages k))) ∧
    (∀ k, k ∉ (distinctKeys messages).take 512 → (empty.applyAll messages).getBook k = none) ∧
    (empty.applyAll messages).symbolCount = min (distinctKeys messages).length 512 ∧
    (empty.applyAll messages).totalMessages =
      messages.countP (fun order => order.tickerKey ∈ (distinctKeys messages).take 512) ∧
    ∀ order, 512 ≤ (distinctKeys messages).length →
      order.tickerKey ∉ (distinctKeys messages).take 512 →
      (empty.applyAll messages).apply order = empty.applyAll messages := by
  have h := applyAll_serves messages
  refine ⟨fun k hk => (h.getBook_eq k).trans (if_pos hk), fun k hk =>
    (h.getBook_eq k).trans (if_neg hk), ?_, h.total, fun order hmany hkey => ?_⟩
  · rw [symbolCount, h.assigns.bookCount_eq, firstKeys, List.length_take, Nat.min_comm]
    rfl
  · refine h.assigns.apply_of_refused hkey ?_
    rw [firstKeys, List.length_take]
    exact Nat.min_eq_left hmany

end ShardedBookManager

end NanoRing
