import NanoRing.Book.SymbolBooks
import Mathlib.Algebra.BigOperators.Group.Finset.Piecewise
import Mathlib.Data.List.Perm.Subperm
import Mathlib.Data.Finset.Range

/-!
# Symbol shards

The assignment of ticker keys to book threads that every pipeline shares, and the messages
that each shard owns. The shards split any list of messages, and all messages of one
symbol go to one shard, so a shard's manager serves its symbols as one manager of all
messages would.
-/

namespace NanoRing

/-- The producer of a pipeline, and its book threads, one for each shard. -/
inductive PipelineThread
  | producer
  | book (t : ℕ)
deriving DecidableEq

/-- The shard of a ticker key. -/
def getShard (numShards : ℕ) (tickerKey : UInt64) : ℕ :=
  let h := tickerKey * 0x9E3779B97F4A7C15
  let h := h ^^^ (h >>> 33)
  h.toNat % numShards

/-- The messages that a shard owns, in order. -/
def shardOrders (numShards : ℕ) (orders : List DecodedOrder) (t : ℕ) : List DecodedOrder :=
  orders.filter fun order => getShard numShards order.tickerKey == t

variable {numShards : ℕ} {orders : List DecodedOrder}

theorem getShard_lt (h : 1 ≤ numShards) (k : UInt64) : getShard numShards k < numShards :=
  Nat.mod_lt _ h

theorem shardOrders_snoc (numShards : ℕ) (orders : List DecodedOrder) (order : DecodedOrder) (t : ℕ) :
    shardOrders numShards (orders ++ [order]) t =
      if getShard numShards order.tickerKey = t then shardOrders numShards orders t ++ [order]
      else shardOrders numShards orders t := by
  rw [shardOrders, List.filter_append]
  by_cases ht : getShard numShards order.tickerKey = t <;> simp [shardOrders, ht]

/-- The shards together own every message once. -/
theorem sum_length_shardOrders (h : 1 ≤ numShards) (orders : List DecodedOrder) :
    ∑ t ∈ Finset.range numShards, (shardOrders numShards orders t).length = orders.length := by
  induction orders using List.reverseRecOn with
  | nil => simp [shardOrders]
  | append_singleton orders order ih =>
    have hone (t : ℕ) : (shardOrders numShards (orders ++ [order]) t).length =
        (shardOrders numShards orders t).length +
          if getShard numShards order.tickerKey = t then 1 else 0 := by
      rw [shardOrders_snoc]
      split
      · rw [List.length_append, List.length_singleton]
      · rfl
    simp only [hone, Finset.sum_add_distrib, ih, Finset.sum_ite_eq, Finset.mem_range,
      getShard_lt h, if_true, List.length_append, List.length_singleton]

/-- A shard owns all messages of its symbols. -/
theorem messagesOf_shardOrders (k : UInt64) :
    messagesOf (shardOrders numShards orders (getShard numShards k)) k = messagesOf orders k := by
  rw [messagesOf, shardOrders, List.filter_filter, messagesOf]
  refine List.filter_congr fun order _ => ?_
  by_cases hk : order.tickerKey = k <;> simp [hk]

/-- The keys of a shard are the keys that it is assigned. -/
theorem mem_distinctKeys_shardOrders {k : UInt64} {t : ℕ} :
    k ∈ distinctKeys (shardOrders numShards orders t) ↔
      k ∈ distinctKeys orders ∧ getShard numShards k = t := by
  simp only [mem_distinctKeys, shardOrders, List.mem_filter, beq_iff_eq]
  constructor
  · intro ⟨order, ⟨horder, ht⟩, hk⟩
    exact ⟨⟨order, horder, hk⟩, hk ▸ ht⟩
  · intro ⟨⟨order, horder, hk⟩, ht⟩
    exact ⟨order, ⟨horder, hk ▸ ht⟩, hk⟩

/-- A shard has no more keys than the whole list. -/
theorem length_distinctKeys_shardOrders_le (numShards : ℕ) (orders : List DecodedOrder) (t : ℕ) :
    (distinctKeys (shardOrders numShards orders t)).length ≤ (distinctKeys orders).length := by
  refine (List.subperm_of_subset (nodup_distinctKeys _) fun k hk => ?_).length_le
  exact (mem_distinctKeys_shardOrders.mp hk).1

namespace ShardedBookManager

/-- A shard's manager answers for its symbols like a manager of all messages, and has no book
of any other symbol. -/
theorem getBook_shardOrders (h : (distinctKeys orders).length ≤ maxSymbolsPerShard) (k : UInt64)
    (t : ℕ) :
    (empty.applyAll (shardOrders numShards orders t)).getBook k =
      if getShard numShards k = t then (empty.applyAll orders).getBook k else none := by
  have hshard := (length_distinctKeys_shardOrders_le numShards orders t).trans h
  rw [(applyAll_serves (shardOrders numShards orders t)).getBook_eq,
    (applyAll_serves orders).getBook_eq, firstKeys_of_le h, firstKeys_of_le hshard]
  simp only [mem_distinctKeys_shardOrders]
  by_cases ht : getShard numShards k = t
  · subst ht
    simp only [messagesOf_shardOrders, and_true, if_true]
  · simp only [ht, and_false, if_false]

end ShardedBookManager

end NanoRing
