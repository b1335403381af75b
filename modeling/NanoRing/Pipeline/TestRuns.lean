import NanoRing.Book.IdleMessages
import NanoRing.Feed.TestOrders
import NanoRing.Pipeline.Agreement
import NanoRing.Pipeline.ShardThreads

/-!
# The programs on their generated messages

Both programs generate messages whose references are all different, so a generated Execute, Delete
or Replace never finds an order. Whichever way the messages reach the books, through the feed
decoder and a pipeline or straight from the array, each drawn symbol ends up with a book of exactly
its Adds, none of them executed or deleted, and every message is counted.
-/

namespace NanoRing

open Schedule OrderBook

/-- The messages of a list of draws. -/
structure TestMessages (tickers : Vector String numTickers) (draws : List Draw)
    (orders : List DecodedOrder) : Prop where
  spells : List.Forall₂ (fun d order => d.Spells tickers order) draws orders
  once : HandsOutOnce orders

/-- Every symbol of the messages has a book of its Adds, and no other symbol has a book. -/
structure BooksOfAdds (getBook : UInt64 → Option OrderBook) (orders : List DecodedOrder) : Prop where
  known : ∀ k ∈ distinctKeys orders,
    ∃ book, getBook k = some book ∧ book.HoldsAdds (messagesOf orders k)
  unknown : ∀ k, k ∉ distinctKeys orders → getBook k = none

section Messages

variable {tickers : Vector String numTickers} {draws : List Draw} {orders : List DecodedOrder}

theorem HandsOutOnce.unrelated (h : HandsOutOnce orders) : Unrelated orders :=
  h.ascending.imp fun hlt _ _ => (UInt64.ne_of_lt hlt).symm

theorem HandsOutOnce.distinctAdds (h : HandsOutOnce orders) : DistinctAdds orders :=
  (h.ascending.sublist List.filter_sublist).imp fun hlt => UInt64.ne_of_lt hlt

/-- Every message was drawn. -/
theorem TestMessages.exists_draw (h : TestMessages tickers draws orders) {order : DecodedOrder}
    (horder : order ∈ orders) : ∃ d : Draw, d.Spells tickers order := by
  obtain ⟨i, hi, rfl⟩ := List.getElem_of_mem horder
  exact ⟨_, h.spells.get (h.spells.length_eq ▸ hi) hi⟩

theorem TestMessages.price_ne_zero (h : TestMessages tickers draws orders) {order : DecodedOrder}
    (horder : order ∈ orders) : order.price ≠ 0 := by
  obtain ⟨d, hd⟩ := h.exists_draw horder
  have hpos : 0 < order.price := by
    rw [hd.price]
    exact UInt32.lt_of_lt_of_le (by decide) d.price_range.1
  exact (UInt32.ne_of_lt hpos).symm

/-- The messages have at most as many symbols as there are tickers, and a manager has room for
them. -/
theorem TestMessages.length_distinctKeys (h : TestMessages tickers draws orders) :
    (distinctKeys orders).length ≤ ShardedBookManager.maxSymbolsPerShard := by
  have hsubset : distinctKeys orders ⊆
      List.ofFn fun i : Fin numTickers => UInt64.ofNat (ByteOrder.little (tickerStock (tickers.get i)).1) := by
    intro k hk
    obtain ⟨order, horder, rfl⟩ := mem_distinctKeys.mp hk
    obtain ⟨d, hd⟩ := h.exists_draw horder
    exact (List.mem_ofFn' _ _).mpr ⟨d.tickerIdx, hd.tickerKey.symm⟩
  have hlength := (List.subperm_of_subset (nodup_distinctKeys orders) hsubset).length_le
  rw [List.length_ofFn] at hlength
  exact hlength.trans (by decide)

/-- The book of any part of the messages holds its Adds. -/
theorem TestMessages.holdsAdds (h : TestMessages tickers draws orders) {part : List DecodedOrder}
    (hpart : part.Sublist orders) : (empty.applyAll part).HoldsAdds part :=
  unrelated_holdsAdds (h.once.unrelated.sublist hpart)
    (h.once.distinctAdds.sublist (hpart.filter _))
    fun _ ha => h.price_ne_zero (hpart.subset (mem_addsOf.mp ha).1)

/-- Books that answer from the messages of their symbols hold their Adds. -/
theorem TestMessages.booksOfAdds (h : TestMessages tickers draws orders)
    {getBook : UInt64 → Option OrderBook}
    (hbooks : ∀ k, getBook k =
      if k ∈ distinctKeys orders then some (empty.applyAll (messagesOf orders k)) else none) :
    BooksOfAdds getBook orders where
  known := fun k hk => ⟨_, (hbooks k).trans (if_pos hk), h.holdsAdds List.filter_sublist⟩
  unknown := fun k hk => (hbooks k).trans (if_neg hk)

/-- One manager of all messages. -/
theorem TestMessages.manager (h : TestMessages tickers draws orders) :
    BooksOfAdds (ShardedBookManager.empty.applyAll orders).getBook orders := by
  have hcap := h.length_distinctKeys
  refine h.booksOfAdds fun k => ?_
  rw [(ShardedBookManager.applyAll_serves orders).getBook_eq, ShardedBookManager.firstKeys_of_le hcap]

/-- Managers of the shards. -/
theorem TestMessages.shards (h : TestMessages tickers draws orders) {numShards : ℕ}
    (hshards : 1 ≤ numShards) {managers : ℕ → ShardedBookManager}
    (hmanagers : ∀ t < numShards,
      managers t = ShardedBookManager.empty.applyAll (shardOrders numShards orders t)) :
    BooksOfAdds (fun k => (managers (getShard numShards k)).getBook k) orders ∧
      ∑ t ∈ Finset.range numShards, (managers t).totalMessages = draws.length := by
  have hcap := h.length_distinctKeys
  refine ⟨h.booksOfAdds fun k => ?_, ?_⟩
  · rw [hmanagers _ (getShard_lt hshards k), ShardedBookManager.getBook_shardOrders hcap, if_pos rfl,
      (ShardedBookManager.applyAll_serves orders).getBook_eq, ShardedBookManager.firstKeys_of_le hcap]
  · rw [h.spells.length_eq, ← sum_length_shardOrders hshards orders]
    refine Finset.sum_congr rfl fun t ht => ?_
    rw [hmanagers t (Finset.mem_range.mp ht)]
    exact ShardedBookManager.totalMessages_of_le
      ((length_distinctKeys_shardOrders_le numShards orders t).trans hcap)

end Messages

namespace Experiments

theorem testMessages {draws : List Draw} (hfits : FitsArray draws) :
    TestMessages tickers draws (generateTestData draws).orders :=
  ⟨(generated draws hfits).spells, (generated draws hfits).once⟩

/-- The three parts of the book experiment: one book of all symbols, one manager, and one thread
for each shard under any schedule. In all of them every generated Add rests untouched. -/
theorem book_throughput_holdsAdds (draws : List Draw) (hfits : FitsArray draws) {numShards : ℕ}
    (hshards : 1 ≤ numShards) {schedule : List ℕ} {threads : ShardThreads}
    (hrun : run ShardThreads.step (.start numShards (generateTestData draws).orders) schedule =
      some threads) (hjoined : threads.Joined numShards) :
    (empty.applyAll (generateTestData draws).orders).HoldsAdds (generateTestData draws).orders ∧
    BooksOfAdds (ShardedBookManager.empty.applyAll (generateTestData draws).orders).getBook
      (generateTestData draws).orders ∧
    (ShardedBookManager.empty.applyAll (generateTestData draws).orders).totalMessages =
      draws.length ∧
    BooksOfAdds (fun k => (threads.managers (getShard numShards k)).getBook k)
      (generateTestData draws).orders ∧
    ∑ s ∈ Finset.range numShards, (threads.managers s).totalMessages = draws.length := by
  have h := testMessages hfits
  refine ⟨h.holdsAdds (List.Sublist.refl _), h.manager, ?_,
    h.shards hshards fun s hs => ShardThreads.managers_of_joined hrun hjoined hs⟩
  rw [h.spells.length_eq]
  exact ShardedBookManager.totalMessages_of_le h.length_distinctKeys

/-- Two threads share the three messages. -/
theorem threeDraws_rest :
    ∃ threads, run ShardThreads.step (.start 2 (generateTestData threeDraws).orders) [1, 0, 1] =
        some threads ∧
      BooksOfAdds (fun k => (threads.managers (getShard 2 k)).getBook k)
        (generateTestData threeDraws).orders := by
  have hends : ((run ShardThreads.step (.start 2 (generateTestData threeDraws).orders) [1, 0, 1]).any
      fun threads => threads.Joined 2) = true := by decide +kernel
  obtain ⟨threads, hrun, hjoined⟩ := (Option.any_eq_true _ _).mp hends
  exact ⟨threads, hrun, (book_throughput_holdsAdds threeDraws threeDraws_fit (by decide) hrun
    (of_decide_eq_true hjoined)).2.2.2.1⟩

end Experiments

namespace Main

/-- From the draws to the books of the main program: whatever the build of the decoder, once the
threads of its pipeline have left their loops, every drawn symbol has a book of its Adds, and each
thread reports the messages that its manager has applied, unless a publish has lapped a thread. -/
theorem pipeline_holdsAdds {draws : List Draw} (hfits : FitsArray draws) {build : SimdBuild}
    {orders : List DecodedOrder} (hdecoded : decoded build draws = some orders) {numThreads : ℕ}
    (hthreads : 1 ≤ numThreads) {actions : List BroadcastAction} {s : BroadcastRun}
    (hkeepsUp : Guarded (BroadcastRun.step orders numThreads)
      (BroadcastRun.KeepsUp orders numThreads) .start actions)
    (hrun : run (BroadcastRun.step orders numThreads) .start actions = some s)
    (hexited : ∀ t < numThreads, (s.threads t).pc = .exited) :
    TestMessages tickers draws orders ∧
    BooksOfAdds (fun k => (s.threads (getShard numThreads k)).manager.getBook k) orders ∧
    (∀ t < numThreads, s.threadMessageCounts t = (s.threads t).manager.totalMessages) ∧
    ∑ t ∈ Finset.range numThreads, s.threadMessageCounts t = draws.length := by
  obtain ⟨orders', horders', hspells, honce⟩ := decoded_spells draws hfits
  obtain rfl : orders' = orders := Option.some.inj ((horders' build).symm.trans hdecoded)
  have h : TestMessages tickers draws orders' := ⟨hspells, honce⟩
  have hinv := guarded_invariant
    (fun _ _ _ h hkeeps hstep => BroadcastRun.Inv.step h hkeeps hstep)
    (BroadcastRun.start_inv orders' numThreads) hkeepsUp hrun
  have hmanager : ∀ t < numThreads, (s.threads t).manager =
      ShardedBookManager.empty.applyAll (shardOrders numThreads orders' t) := fun t ht => by
    rw [(hinv.reads t ht).manager, (hinv.of_exited ht (hexited t ht)).1]
  have hcounts : ∀ t < numThreads,
      s.threadMessageCounts t = (s.threads t).manager.totalMessages := fun t ht => by
    rw [(hinv.of_exited ht (hexited t ht)).2, hmanager t ht]
    exact (ShardedBookManager.totalMessages_of_le
      ((length_distinctKeys_shardOrders_le numThreads orders' t).trans h.length_distinctKeys)).symm
  obtain ⟨hbooks, hsum⟩ : BooksOfAdds
      (fun k => (s.threads (getShard numThreads k)).manager.getBook k) orders' ∧
        ∑ t ∈ Finset.range numThreads, (s.threads t).manager.totalMessages = draws.length :=
    h.shards hthreads hmanager
  refine ⟨h, hbooks, hcounts, ?_⟩
  rw [← hsum]
  exact Finset.sum_congr rfl fun t ht => hcounts t (Finset.mem_range.mp ht)

/-- Two threads read the three messages, the first while they are being published, and leave their
loops. -/
def threeDrawsRead : List BroadcastAction :=
  [.publish, .thread 0, .thread 0, .publish, .publish, .setDone] ++ List.replicate 10 (.thread 0) ++
    List.replicate 9 (.thread 1)

/-- The main program runs on three draws to its end. -/
theorem threeDraws_piped :
    ∃ orders s, decoded .neon threeDraws = some orders ∧
      run (BroadcastRun.step orders 2) .start threeDrawsRead = some s ∧
      BooksOfAdds (fun k => (s.threads (getShard 2 k)).manager.getBook k) orders := by
  have hdecodes : (decoded .neon threeDraws).any (fun orders =>
      orders.length = 3 ∧ (run (BroadcastRun.step orders 2) .start threeDrawsRead).any
        fun s => ∀ t < 2, (s.threads t).pc = .exited) = true := by decide +kernel
  obtain ⟨orders, hdecoded, hreads⟩ := (Option.any_eq_true _ _).mp hdecodes
  obtain ⟨hlength, hends⟩ := of_decide_eq_true hreads
  obtain ⟨s, hrun, hexited⟩ := (Option.any_eq_true _ _).mp hends
  refine ⟨orders, s, hdecoded, hrun, (pipeline_holdsAdds threeDraws_fit hdecoded (by decide)
    ?_ hrun (of_decide_eq_true hexited)).2.1⟩
  exact fun _ a _ _ _ => BroadcastRun.keepsUp_of_length_le (by rw [hlength]; decide) a

end Main

end NanoRing
