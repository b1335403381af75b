import NanoRing.Book.ShareFlow
import NanoRing.Pipeline.Agreement

/-!
# What the pipelines quote

What a book guarantees for the messages of one symbol, the pipelines guarantee for every symbol of a
feed: once the threads have been joined, the book of a symbol quotes the best prices of the orders of
that symbol which still rest, and accounts for all of their shares. How the threads have interleaved,
how many there are and what the other symbols do makes no difference.
-/

namespace NanoRing

open Schedule ShardedBookManager OrderBook

/-- The book that is found for a symbol quotes the best prices of the orders which rest under that
symbol, and its levels, the executions and the cancellations account for the shares entered. -/
def QuotesSymbol (getBook : UInt64 → Option OrderBook) (orders : List DecodedOrder) (k : UInt64) :
    Prop :=
  ∃ book, getBook k = some book ∧ QuotesBest book (Resting.after (messagesOf orders k)) ∧
    ∀ side, side = sideBuy ∨ side = sideSell →
      book.quotedShares side + OrderBook.empty.sumAlong (sharesExecuted side) (messagesOf orders k) +
        OrderBook.empty.sumAlong (sharesCancelled side) (messagesOf orders k) =
          OrderBook.empty.sumAlong (sharesEntered side) (messagesOf orders k)

variable {orders : OrderArray} {numThreads : ℕ} {k : UInt64}

/-- The manager of a shard quotes its first 512 symbols. -/
theorem quotesSymbol_of_shard
    (hk : k ∈ firstKeys (shardOrders numThreads orders.1 (getShard numThreads k)))
    (hfeasible : Resting.Feasible (fun _ => none) (messagesOf orders.1 k)) :
    QuotesSymbol (ShardedBookManager.empty.applyAll
      (shardOrders numThreads orders.1 (getShard numThreads k))).getBook orders.1 k := by
  obtain ⟨hrefines, hpriced, htop⟩ := feasible_quotes hfeasible
  refine ⟨OrderBook.empty.applyAll (messagesOf orders.1 k), ?_, hrefines.quotesBest hpriced htop,
    fun side hside => ?_⟩
  · rw [getBook_of_shard, if_pos hk]
  · rw [hrefines.quotedShares_eq hside]
    exact sharesOn_of_feasible hfeasible side

/-- Once the threads of the routed pipeline have left their loops, the manager of a symbol's shard
quotes the symbol, if it is among the first 512 of the shard and its own messages are within the
capacity of a book. -/
theorem RoutedRun.quotes_symbols (hthreads : 1 ≤ numThreads) {r : RoutedRun}
    {routed : List RoutedAction}
    (hrouted : run (RoutedRun.step orders numThreads) .start routed = some r)
    (happlied : ∀ t < numThreads, (r.consumers t).pc = .exited)
    (hk : k ∈ firstKeys (shardOrders numThreads orders.1 (getShard numThreads k)))
    (hfeasible : Resting.Feasible (fun _ => none) (messagesOf orders.1 k)) :
    QuotesSymbol (r.consumers (getShard numThreads k)).manager.getBook orders.1 k := by
  have hinv := run_invariant (fun _ _ _ h hstep => RoutedRun.Inv.step h hstep)
    (RoutedRun.start_inv orders numThreads) hrouted
  have ht := getShard_lt hthreads k
  rw [(hinv.results ht (happlied _ ht)).1]
  exact quotesSymbol_of_shard hk hfeasible

/-- Both symbols of the routed orders are quoted. -/
theorem threeOrders_quoted :
    ∃ r, run (RoutedRun.step threeOrders 2) .start threeOrdersPopped = some r ∧
      QuotesSymbol (r.consumers (getShard 2 5)).manager.getBook threeOrders.1 5 ∧
      QuotesSymbol (r.consumers (getShard 2 8)).manager.getBook threeOrders.1 8 := by
  have hpops : (run (RoutedRun.step threeOrders 2) .start threeOrdersPopped).any
      (fun r => ∀ t < 2, (r.consumers t).pc = .exited) = true := by decide +kernel
  obtain ⟨r, hrouted, happlied⟩ := (Option.any_eq_true _ _).mp hpops
  have happlied := of_decide_eq_true happlied
  have hquotes := RoutedRun.quotes_symbols (k := 5) (by decide) hrouted happlied
  have hquotes' := RoutedRun.quotes_symbols (k := 8) (by decide) hrouted happlied
  refine ⟨r, hrouted, hquotes (by decide) ?_, hquotes' (by decide) ?_⟩
  · exact Resting.feasible_of_small (by decide) (by decide)
      (Schedule.forall_snoc_prefix_iff.mpr (by decide))
  · exact Resting.feasible_of_small (by decide) (by decide)
      (Schedule.forall_snoc_prefix_iff.mpr (by decide))

/-- The same holds of the broadcast pipeline, in the runs in which no publish laps a thread. -/
theorem BroadcastRun.quotes_symbols_of_keepsUp (hthreads : 1 ≤ numThreads) {b : BroadcastRun}
    {broadcast : List BroadcastAction}
    (hkeepsUp : Guarded (BroadcastRun.step orders.1 numThreads)
      (BroadcastRun.KeepsUp orders.1 numThreads) .start broadcast)
    (hbroadcast : run (BroadcastRun.step orders.1 numThreads) .start broadcast = some b)
    (hread : ∀ t < numThreads, (b.threads t).pc = .exited)
    (hk : k ∈ firstKeys (shardOrders numThreads orders.1 (getShard numThreads k)))
    (hfeasible : Resting.Feasible (fun _ => none) (messagesOf orders.1 k)) :
    QuotesSymbol (b.threads (getShard numThreads k)).manager.getBook orders.1 k := by
  have hinv := guarded_invariant
    (fun _ _ _ h hkeeps hstep => BroadcastRun.Inv.step h hkeeps hstep)
    (BroadcastRun.start_inv orders.1 numThreads) hkeepsUp hbroadcast
  have ht := getShard_lt hthreads k
  rw [(hinv.reads _ ht).manager, (hinv.of_exited ht (hread _ ht)).1]
  exact quotesSymbol_of_shard hk hfeasible

end NanoRing
