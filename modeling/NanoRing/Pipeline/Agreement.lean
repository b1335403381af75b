import NanoRing.Pipeline.BroadcastDelivery
import NanoRing.Pipeline.RoutedProgress

/-!
# The two pipelines agree

The experiments run the same orders through the broadcast pipeline, in which every thread reads
every order, and through the routed pipeline, in which a thread is sent the orders of its shard.
However the threads of either interleave, they end with the same managers and the same message
counts, unless a publish of the broadcast pipeline has lapped a thread. A manager has a book for
the first 512 symbols of its shard; the counts of the threads include what it has dropped.
-/

namespace NanoRing

open Schedule ShardedBookManager

variable {numShards : ℕ} {orders : List DecodedOrder} {t : ℕ}

/-- A shard's manager has the book of each of its first symbols, with all messages of the feed
for that symbol. -/
theorem getBook_of_shard (numShards : ℕ) (orders : List DecodedOrder) (t : ℕ) (k : UInt64) :
    (empty.applyAll (shardOrders numShards orders t)).getBook k =
      if k ∈ firstKeys (shardOrders numShards orders t) then
        some (OrderBook.empty.applyAll (messagesOf orders k))
      else none := by
  rw [(applyAll_serves (shardOrders numShards orders t)).getBook_eq]
  refine if_ctx_congr Iff.rfl (fun hk => ?_) fun _ => rfl
  obtain ⟨-, rfl⟩ := mem_distinctKeys_shardOrders.mp (List.mem_of_mem_take hk)
  rw [messagesOf_shardOrders]

/-- A manager has counted every message exactly when it has a book for every symbol. -/
theorem totalMessages_eq_length_iff (messages : List DecodedOrder) :
    (empty.applyAll messages).totalMessages = messages.length ↔
      (distinctKeys messages).length ≤ maxSymbolsPerShard := by
  refine ⟨fun hall => ?_, totalMessages_of_le⟩
  rw [(applyAll_serves messages).total, List.countP_eq_length] at hall
  have hfirst : distinctKeys messages ⊆ firstKeys messages := fun k hk => by
    obtain ⟨order, horder, rfl⟩ := mem_distinctKeys.mp hk
    exact of_decide_eq_true (hall order horder)
  exact (List.subperm_of_subset (nodup_distinctKeys messages) hfirst).length_le.trans
    (List.length_take_le _ _)

section Runs

variable {orders : OrderArray} {numThreads : ℕ} {b : BroadcastRun} {r : RoutedRun}
  {broadcast : List BroadcastAction} {routed : List RoutedAction}

/-- Once all threads of both pipelines have left their loops, each shard has the same manager and
the same count in both, and its manager answers for its first 512 symbols from all messages of
the feed. -/
theorem pipelines_agree
    (hkeepsUp : Guarded (BroadcastRun.step orders.1 numThreads)
      (BroadcastRun.KeepsUp orders.1 numThreads) .start broadcast)
    (hbroadcast : run (BroadcastRun.step orders.1 numThreads) .start broadcast = some b)
    (hread : ∀ t < numThreads, (b.threads t).pc = .exited)
    (hrouted : run (RoutedRun.step orders numThreads) .start routed = some r)
    (happlied : ∀ t < numThreads, (r.consumers t).pc = .exited) :
    ∀ t < numThreads, (b.threads t).manager = (r.consumers t).manager ∧
      b.threadMessageCounts t = r.threadMessageCounts t ∧
      ∀ k, (r.consumers t).manager.getBook k =
        if k ∈ firstKeys (shardOrders numThreads orders.1 t) then
          some (OrderBook.empty.applyAll (messagesOf orders.1 k))
        else none := by
  intro t ht
  have hinv := guarded_invariant
    (fun _ _ _ h hkeeps hstep => BroadcastRun.Inv.step h hkeeps hstep)
    (BroadcastRun.start_inv orders.1 numThreads) hkeepsUp hbroadcast
  obtain ⟨hseen, hcount⟩ := hinv.of_exited ht (hread t ht)
  have hinv' := run_invariant (fun _ _ _ h hstep => RoutedRun.Inv.step h hstep)
    (RoutedRun.start_inv orders numThreads) hrouted
  obtain ⟨hmanager, hcount'⟩ := hinv'.results ht (happlied t ht)
  refine ⟨?_, hcount.trans hcount'.symm, fun k => ?_⟩
  · rw [(hinv.reads t ht).manager, hseen, hmanager]
  · rw [hmanager, getBook_of_shard]

/-- The three orders of two symbols. -/
def threeOrders : OrderArray := ⟨BroadcastRun.threeOrders, by decide⟩

/-- One of two book threads of the routed pipeline looks too early; both pop their orders and
leave. -/
def threeOrdersPopped : List RoutedAction :=
  [.thread 0, .route, .thread 0] ++ List.replicate 9 .route ++ List.replicate 7 (.thread 0) ++
    List.replicate 5 (.thread 1)

/-- Each thread ends with the same manager in both pipelines. -/
theorem threeOrders_agree :
    ∃ b r, run (BroadcastRun.step threeOrders.1 2) .start BroadcastRun.threeOrdersRead = some b ∧
      run (RoutedRun.step threeOrders 2) .start threeOrdersPopped = some r ∧
      ∀ t < 2, (b.threads t).manager = (r.consumers t).manager := by
  have hreads : (run (BroadcastRun.step threeOrders.1 2) .start BroadcastRun.threeOrdersRead).any
      (fun b => ∀ t < 2, (b.threads t).pc = .exited) = true := by decide +kernel
  have hpops : (run (RoutedRun.step threeOrders 2) .start threeOrdersPopped).any
      (fun r => ∀ t < 2, (r.consumers t).pc = .exited) = true := by decide +kernel
  obtain ⟨b, hbroadcast, hread⟩ := (Option.any_eq_true _ _).mp hreads
  obtain ⟨r, hrouted, happlied⟩ := (Option.any_eq_true _ _).mp hpops
  refine ⟨b, r, hbroadcast, hrouted, fun t ht => (pipelines_agree ?_ hbroadcast
    (of_decide_eq_true hread) hrouted (of_decide_eq_true happlied) t ht).1⟩
  exact fun _ a _ _ _ => BroadcastRun.keepsUp_of_length_le (by decide) a

/-- The counts that the routed pipeline reports are the messages that its managers have applied
exactly when no shard has more than 512 symbols. -/
theorem reported_counts_applied_iff
    (hrouted : run (RoutedRun.step orders numThreads) .start routed = some r)
    (happlied : ∀ t < numThreads, (r.consumers t).pc = .exited) :
    (∀ t < numThreads, r.threadMessageCounts t = (r.consumers t).manager.totalMessages) ↔
      ∀ t < numThreads, (distinctKeys (shardOrders numThreads orders.1 t)).length ≤ 512 := by
  have hinv := run_invariant (fun _ _ _ h hstep => RoutedRun.Inv.step h hstep)
    (RoutedRun.start_inv orders numThreads) hrouted
  refine forall₂_congr fun t ht => ?_
  obtain ⟨hmanager, hcount⟩ := hinv.results ht (happlied t ht)
  rw [hmanager, hcount, eq_comm]
  exact totalMessages_eq_length_iff _

/-- The three orders are counted and applied. -/
theorem threeOrders_counted :
    ∃ r, run (RoutedRun.step threeOrders 2) .start threeOrdersPopped = some r ∧
      ∀ t < 2, r.threadMessageCounts t = (r.consumers t).manager.totalMessages := by
  have hpops : (run (RoutedRun.step threeOrders 2) .start threeOrdersPopped).any
      (fun r => ∀ t < 2, (r.consumers t).pc = .exited) = true := by decide +kernel
  obtain ⟨r, hrouted, happlied⟩ := (Option.any_eq_true _ _).mp hpops
  exact ⟨r, hrouted, (reported_counts_applied_iff hrouted (of_decide_eq_true happlied)).mpr
    (by decide)⟩

end Runs

end NanoRing
