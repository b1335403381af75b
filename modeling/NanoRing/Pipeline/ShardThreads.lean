import NanoRing.Common.Schedule
import NanoRing.Pipeline.Shards

/-!
# Parallel shards of a fixed list

The parallel book experiment: the messages are partitioned by shard, and one thread for
each shard applies its part to its own manager. The threads share nothing, so every
schedule ends with the managers of the parts, and the shards together answer like one
manager that applied the whole list.
-/

namespace NanoRing

open Schedule

/-- The `push_back` loop that partitions the messages. -/
def partitions (numShards : ℕ) (orders : List DecodedOrder) : ℕ → List DecodedOrder :=
  orders.foldl (fun parts order =>
    let shard := getShard numShards order.tickerKey
    Function.update parts shard (parts shard ++ [order])) fun _ => []

/-- The threads between two steps: each manager, and the messages its thread has left. -/
structure ShardThreads where
  managers : ℕ → ShardedBookManager
  left : ℕ → List DecodedOrder

namespace ShardThreads

/-- The threads before their first step. -/
def start (numShards : ℕ) (orders : List DecodedOrder) : ShardThreads where
  managers := fun _ => .empty
  left := partitions numShards orders

/-- One loop iteration of thread `s`. -/
def step (threads : ShardThreads) (s : ℕ) : Option ShardThreads :=
  match threads.left s with
  | [] => none
  | order :: rest =>
    some
      { managers := Function.update threads.managers s ((threads.managers s).apply order)
        left := Function.update threads.left s rest }

/-- Every thread below the number of shards has applied all of its messages. -/
def Joined (threads : ShardThreads) (numShards : ℕ) : Prop := ∀ s < numShards, threads.left s = []

instance (threads : ShardThreads) (numShards : ℕ) : Decidable (threads.Joined numShards) :=
  inferInstanceAs (Decidable (∀ s < numShards, threads.left s = []))

end ShardThreads

/-- The partition loop gives every shard the messages that it owns. -/
theorem partitions_eq (numShards : ℕ) (orders : List DecodedOrder) :
    partitions numShards orders = shardOrders numShards orders := by
  induction orders using List.reverseRecOn with
  | nil => rfl
  | append_singleton orders order ih =>
    funext t
    rw [partitions, List.foldl_concat, ← partitions, ih, shardOrders_snoc]
    by_cases ht : getShard numShards order.tickerKey = t
    · subst ht
      rw [if_pos rfl, Function.update_self]
    · rw [if_neg ht, Function.update_of_ne (Ne.symm ht)]

namespace ShardThreads

variable {threads threads' : ShardThreads} {numShards : ℕ} {orders : List DecodedOrder}

/-- Every manager has applied the part of its messages that its thread has behind it. -/
def Partway (numShards : ℕ) (orders : List DecodedOrder) (threads : ShardThreads) : Prop :=
  ∀ s, ∃ done, shardOrders numShards orders s = done ++ threads.left s ∧
    threads.managers s = ShardedBookManager.empty.applyAll done

theorem start_partway (numShards : ℕ) (orders : List DecodedOrder) :
    Partway numShards orders (start numShards orders) := by
  intro s
  refine ⟨[], ?_, rfl⟩
  rw [start, partitions_eq, List.nil_append]

/-- A step moves one message of one thread behind it. -/
theorem Partway.step (h : Partway numShards orders threads) {s : ℕ}
    (hstep : threads.step s = some threads') : Partway numShards orders threads' := by
  unfold ShardThreads.step at hstep
  split at hstep
  · contradiction
  · rename_i order rest hleft
    obtain rfl := Option.some.inj hstep
    intro t
    obtain ⟨done, hparts, hmanager⟩ := h t
    by_cases hts : t = s
    · subst hts
      refine ⟨done ++ [order], ?_, ?_⟩
      · rw [hparts, hleft]
        simp
      · rw [ShardedBookManager.applyAll_snoc, ← hmanager]
        exact Function.update_self _ _ _
    · refine ⟨done, ?_, ?_⟩
      · rw [hparts]
        exact congrArg _ (Function.update_of_ne hts _ _).symm
      · exact (Function.update_of_ne hts _ _).trans hmanager

/-- However the threads interleave, each manager ends up with the messages of its shard. -/
theorem managers_of_joined {schedule : List ℕ}
    (hrun : run ShardThreads.step (start numShards orders) schedule = some threads)
    (hjoined : threads.Joined numShards) {s : ℕ} (hs : s < numShards) :
    threads.managers s = ShardedBookManager.empty.applyAll (shardOrders numShards orders s) := by
  have hpartway := run_invariant (fun _ _ _ h hstep => Partway.step h hstep)
    (start_partway numShards orders) hrun
  obtain ⟨done, hparts, hmanager⟩ := hpartway s
  rw [hjoined s hs, List.append_nil] at hparts
  rw [hmanager, hparts]

/-- Sharding is transparent: however the threads interleave, the shard of a symbol answers for
it like one manager that applied the whole list, every other shard has no book of it, and the
shards together count every message. -/
theorem joined_answers_like_one_manager (hshards : 1 ≤ numShards)
    (hsymbols : (distinctKeys orders).length ≤ 512) {schedule : List ℕ}
    (hrun : run ShardThreads.step (start numShards orders) schedule = some threads)
    (hjoined : threads.Joined numShards) :
    (∀ k, (threads.managers (getShard numShards k)).getBook k =
      (ShardedBookManager.empty.applyAll orders).getBook k) ∧
    (∀ k, ∀ s < numShards, s ≠ getShard numShards k → (threads.managers s).getBook k = none) ∧
    ∑ s ∈ Finset.range numShards, (threads.managers s).totalMessages = orders.length := by
  refine ⟨fun k => ?_, fun k s hs hother => ?_, ?_⟩
  · rw [managers_of_joined hrun hjoined (getShard_lt hshards k),
      ShardedBookManager.getBook_shardOrders hsymbols, if_pos rfl]
  · rw [managers_of_joined hrun hjoined hs, ShardedBookManager.getBook_shardOrders hsymbols,
      if_neg (Ne.symm hother)]
  · rw [← sum_length_shardOrders hshards orders]
    refine Finset.sum_congr rfl fun s hs => ?_
    rw [managers_of_joined hrun hjoined (Finset.mem_range.mp hs)]
    exact ShardedBookManager.totalMessages_of_le
      ((length_distinctKeys_shardOrders_le numShards orders s).trans hsymbols)

/-- Two symbols of different shards. -/
def twoSymbols : List DecodedOrder :=
  [⟨.add, 1, 5, 100, 10, sideBuy, 0⟩, ⟨.add, 2, 8, 90, 20, sideSell, 0⟩, ⟨.delete, 1, 5, 0, 0, 0, 0⟩]

/-- Two threads share the messages of two symbols; the second thread runs first. -/
theorem two_threads_answer_like_one_manager :
    ∃ threads, run ShardThreads.step (start 2 twoSymbols) [1, 0, 0] = some threads ∧
      ∑ s ∈ Finset.range 2, (threads.managers s).totalMessages = 3 := by
  have hends : ((run ShardThreads.step (start 2 twoSymbols) [1, 0, 0]).any
      fun threads => threads.Joined 2) = true := by decide +kernel
  obtain ⟨threads, hrun, hjoined⟩ := (Option.any_eq_true _ _).mp hends
  exact ⟨threads, hrun, (joined_answers_like_one_manager (by decide) (by decide) hrun
    (of_decide_eq_true hjoined)).2.2⟩

end ShardThreads

end NanoRing
