import NanoRing.Pipeline.RoutedInvariant

/-!
# Delivery of the routed pipeline

Every step keeps the invariant. A thread leaves its loop only when the flag is set, so that all
orders of its shard have been pushed, and its queue is empty, so that it has popped them all.
-/

namespace NanoRing

open Schedule

namespace RoutedRun

section Delivery

variable {orders : OrderArray} {numThreads : ℕ} {s s' : RoutedRun} {t : ℕ}

/-- A thread that finds its queue empty after the flag was set has applied its whole shard. -/
theorem Inv.exit (h : Inv orders numThreads s) (hpc : (s.consumers t).pc = .testAvailable)
    (hempty : (s.queues t).available = 0) :
    Inv orders numThreads
      { s.setConsumer t { s.consumers t with pc := .exited } with
        threadMessageCounts :=
          Function.update s.threadMessageCounts t (s.consumers t).localCount } := by
  have hinside : (s.consumers t).pc ≠ .exited := by simp [hpc]
  refine (h.recordCount hinside (s.consumers t).localCount).setConsumer
    fun popped pushed hr ha => ?_
  have hpushed := (h.recordCount hinside (s.consumers t).localCount).pushed_eq (ha.done hpc) hr
  have hpopped : popped = pushed := by
    have havailable := hr.holds.toNat_available
    have hle := hr.holds.popped_le
    have hzero : (s.queues t).available.toNat = 0 := by
      rw [hempty]
      rfl
    have hrest : pushed - popped = 0 := havailable.symm.trans hzero
    omega
  have happlied : (s.consumers t).applied = shardOrders numThreads orders.1 t := by
    have hall := ha.applied
    rw [inHand, hpc, hpopped, hpushed, List.take_length] at hall
    rw [← hall]
    exact (List.append_nil _).symm
  refine ⟨?_, ha.manager, ha.localCount, by simp, fun _ => ⟨happlied, Function.update_self _ _ _⟩⟩
  rw [hpopped, hpushed, List.take_length, ← happlied]
  exact List.append_nil _

theorem Inv.threadStep (h : Inv orders numThreads s) (hstep : s.threadStep t = some s') :
    Inv orders numThreads s' := by
  unfold RoutedRun.threadStep at hstep
  dsimp only at hstep
  cases hpc : (s.consumers t).pc with
  | popping =>
    simp only [hpc] at hstep
    have hhand : inHand (s.consumers t) = [] := by rw [inHand, hpc]
    split at hstep
    · rename_i order queue hpop
      obtain rfl := Option.some.inj hstep
      exact h.pop hpc hpop
    · obtain rfl := Option.some.inj hstep
      exact h.setPc hhand rfl (by simp) (by simp)
  | applying order =>
    simp only [hpc] at hstep
    obtain rfl := Option.some.inj hstep
    exact h.apply hpc
  | testDone =>
    simp only [hpc] at hstep
    have hhand : inHand (s.consumers t) = [] := by rw [inHand, hpc]
    split at hstep
    · rename_i hdone
      obtain rfl := Option.some.inj hstep
      exact h.setPc hhand rfl (fun _ => hdone) (by simp)
    · obtain rfl := Option.some.inj hstep
      exact h.setPc hhand rfl (by simp) (by simp)
  | testAvailable =>
    simp only [hpc] at hstep
    have hhand : inHand (s.consumers t) = [] := by rw [inHand, hpc]
    split at hstep
    · rename_i hempty
      obtain rfl := Option.some.inj hstep
      exact h.exit hpc (eq_of_beq hempty)
    · obtain rfl := Option.some.inj hstep
      exact h.setPc hhand rfl (by simp) (by simp)
  | exited =>
    simp only [hpc] at hstep
    contradiction

theorem Inv.step (h : Inv orders numThreads s) {a : RoutedAction}
    (hstep : s.step orders numThreads a = some s') : Inv orders numThreads s' := by
  cases a with
  | route => exact h.routeStep hstep
  | thread t => exact h.threadStep (Option.ite_none_right_eq_some.mp hstep).2

theorem Inv.delivers (h : Inv orders numThreads s) (hthreads : 1 ≤ numThreads) :
    Delivers orders numThreads s where
  applied := fun t ht => by
    obtain ⟨popped, _, _, ha⟩ := h.shard t ht
    exact (ha.applied ▸ List.prefix_append _ _).trans (List.take_prefix popped _)
  exited := fun t ht hpc => by
    obtain ⟨_, _, _, ha⟩ := h.shard t ht
    exact (ha.exited hpc).1
  managers := fun hexited t ht => by
    obtain ⟨_, _, _, ha⟩ := h.shard t ht
    rw [ha.manager, (ha.exited (hexited t ht)).1]
  counts := fun hexited => by
    rw [← sum_length_shardOrders hthreads orders.1]
    refine Finset.sum_congr rfl fun t ht => ?_
    obtain ⟨_, _, _, ha⟩ := h.shard t (Finset.mem_range.mp ht)
    obtain ⟨happlied, hcount⟩ := ha.exited (hexited t (Finset.mem_range.mp ht))
    rw [hcount, ha.localCount, happlied]

/-- However the producer and the book threads interleave, every thread applies the orders of its
shard in order, and all of them before it leaves its loop. -/
theorem routed_delivers (hthreads : 1 ≤ numThreads) {actions : List RoutedAction}
    (hrun : run (RoutedRun.step orders numThreads) start actions = some s) :
    Delivers orders numThreads s :=
  (run_invariant (fun _ _ _ h hstep => Inv.step h hstep) (start_inv orders numThreads)
    hrun).delivers hthreads

/-- Two orders of two symbols. -/
def twoOrders : OrderArray :=
  ⟨[⟨.add, 1, 5, 100, 10, sideBuy, 0⟩, ⟨.add, 2, 8, 90, 20, sideSell, 0⟩], by decide⟩

/-- One thread looks too early; both pop their orders after the producer has flushed its batches. -/
def twoOrdersRun : List RoutedAction :=
  [.thread 0, .thread 0] ++ List.replicate 8 .route ++
    List.replicate 5 (.thread 1) ++ List.replicate 5 (.thread 0)

/-- Both threads leave their loops, and together they count both orders. -/
theorem twoOrders_delivered :
    ∃ s, run (RoutedRun.step twoOrders 2) start twoOrdersRun = some s ∧
      ∑ t ∈ Finset.range 2, s.threadMessageCounts t = 2 := by
  have hends : (run (RoutedRun.step twoOrders 2) start twoOrdersRun).any
      (fun s => ∀ t < 2, (s.consumers t).pc = .exited) = true := by decide +kernel
  obtain ⟨s, hrun, hpc⟩ := (Option.any_eq_true _ _).mp hends
  exact ⟨s, hrun, (routed_delivers (by decide) hrun).counts (of_decide_eq_true hpc)⟩

end Delivery

end RoutedRun

end NanoRing
