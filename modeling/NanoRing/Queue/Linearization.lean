import NanoRing.Common.BoundedFifo
import NanoRing.Common.Simulation
import NanoRing.Queue.SpscFifo

/-!
# The queue answers at once

Seen from outside, every call of the queue takes effect in a single step, its last one: a push when it
stores `head_`, a pop when it stores `tail_`, a refused call when it loads the index of the other side.
In this order the calls are those of a bounded queue that answers at once.
-/

namespace NanoRing

open Schedule

/-- The producer is between calls. -/
def PushPc.isIdle {w : ℕ} {α : Type} : PushPc w α → Bool
  | .idle _ => true
  | _ => false

/-- The consumer is between calls. -/
def PopPc.isIdle {w : ℕ} {α : Type} : PopPc w α → Bool
  | .idle _ => true
  | _ => false

namespace SpscRun

variable {w : ℕ} {α : Type} {exponent : ℕ} {s s' : SpscRun w α}

/-- The call that takes effect with a step, and its answer. -/
def effect (exponent : ℕ) (s : SpscRun w α) : SpscAction α → List (FifoCall α)
  | .callPush _ _ => []
  | .produce =>
    match s.producer with
    | .loadTail .tryPush _ h => if SpscQueue.isFull exponent h s.queue.tail then [.full] else []
    | .storeHead item _ => [.enqueued item]
    | _ => []
  | .callPop => []
  | .consume =>
    match s.consumer with
    | .loadHead t => if SpscQueue.isEmpty s.queue.head t then [.empty] else []
    | .storeTail _ item => [.dequeued item]
    | _ => []

/-- The items that are pushed and not popped. -/
def contents (s : SpscRun w α) : List α := s.pushed.drop s.popped.length

/-- A call of either side ends with a step. -/
def Ends (s s' : SpscRun w α) : Prop :=
  (s.producer.isIdle = false ∧ s'.producer.isIdle = true) ∨
    (s.consumer.isIdle = false ∧ s'.consumer.isIdle = true)

/-- The calls that have taken effect, in this order, are those of a bounded queue that answers at
once, with the same items left in it; and a step has an effect exactly when it ends a call. -/
structure Linearizes [DecidableEq α] (exponent : ℕ) (actions : List (SpscAction α))
    (first last : SpscRun w α) : Prop where
  atomic : run (BoundedFifo.step (2 ^ exponent)) first.contents
    (outputs (SpscRun.step exponent) (effect exponent) first actions) = some last.contents
  ended : ∀ a s', last.step exponent a = some s' →
    (effect exponent last a ≠ [] ↔ Ends last s')

/-- A step of the producer takes effect when it ends a call. -/
theorem effect_produce_ne_nil_iff (hstep : s.produce exponent = some s') :
    effect exponent s .produce ≠ [] ↔ Ends s s' := by
  cases produces_of_step hstep with
  | refused hpc hfull => simp [effect, Ends, hpc, hfull, PushPc.isIdle]
  | spun hpc => simp [effect, Ends, hpc, PushPc.isIdle]
  | @admitted call _ _ hpc hroom =>
    cases call <;> simp [effect, Ends, hpc, hroom, PushPc.isIdle]
  | copiedIn hpc => simp [effect, Ends, hpc, PushPc.isIdle]
  | stored hpc => simp [effect, Ends, hpc, PushPc.isIdle]

/-- A step of the consumer takes effect when it ends a call. -/
theorem effect_consume_ne_nil_iff (hstep : s.consume exponent = some s') :
    effect exponent s .consume ≠ [] ↔ Ends s s' := by
  cases consumes_of_step hstep with
  | refused hpc hempty => simp [effect, Ends, hpc, hempty, PopPc.isIdle]
  | admitted hpc hnonempty => simp [effect, Ends, hpc, hnonempty, PopPc.isIdle]
  | copiedOut hpc => simp [effect, Ends, hpc, PopPc.isIdle]
  | stored hpc => simp [effect, Ends, hpc, PopPc.isIdle]

/-- A step takes effect when it ends a call. -/
theorem effect_ne_nil_iff {a : SpscAction α} (hstep : s.step exponent a = some s') :
    effect exponent s a ≠ [] ↔ Ends s s' := by
  cases a with
  | callPush call item =>
    rw [step, callPush] at hstep
    split at hstep
    case h_1 refused hpc =>
      obtain rfl := Option.some.inj hstep
      simp [effect, Ends, hpc, PushPc.isIdle]
    case h_2 => contradiction
  | produce => exact effect_produce_ne_nil_iff hstep
  | callPop =>
    rw [step, callPop] at hstep
    split at hstep
    case h_1 refused hpc =>
      obtain rfl := Option.some.inj hstep
      simp [effect, Ends, hpc, PopPc.isIdle]
    case h_2 => contradiction
  | consume => exact effect_consume_ne_nil_iff hstep

/-- No run takes a pushed item back. -/
theorem pushed_length_le_of_run {actions : List (SpscAction α)}
    (hrun : run (SpscRun.step exponent) s actions = some s') :
    s.pushed.length ≤ s'.pushed.length := by
  have hgrows (t : SpscRun w α) (a : SpscAction α) (t' : SpscRun w α)
      (hle : s.pushed.length ≤ t.pushed.length) (hstep : t.step exponent a = some t') :
      s.pushed.length ≤ t'.pushed.length := hle.trans (pushed_prefix_of_step hstep).length_le
  exact run_invariant hgrows le_rfl hrun

section Simulation

variable [Inhabited α] [DecidableEq α]

/-- A step of the producer does to the contents what its effect does. -/
theorem Inv.effect_produce (h : Inv exponent s) (hcapacity : exponent < w)
    (hstep : s.produce exponent = some s') :
    run (BoundedFifo.step (2 ^ exponent)) s.contents (effect exponent s .produce) =
      some s'.contents := by
  have hsound := h.producer
  have hpopped := h.popped.length_le
  have hlength : s.contents.length = s.pushed.length - s.popped.length := List.length_drop
  unfold ProducerSound at hsound
  cases produces_of_step hstep with
  | @refused item head hpc hfull =>
    have hwhole := (h.push_refused hcapacity hstep rfl).2
    simp only [effect, hpc, if_pos hfull, run, BoundedFifo.step]
    rw [if_pos (by omega), Option.bind_some]
    rfl
  | spun hpc =>
    simp only [effect, hpc, run]
  | @admitted call item head hpc hroom =>
    cases call with
    | tryPush =>
      simp only [effect, hpc, if_neg hroom, run]
      rfl
    | push =>
      simp only [effect, hpc, run]
      rfl
  | copiedIn hpc =>
    simp only [effect, hpc, run]
    rfl
  | stored hpc =>
    rw [hpc] at hsound
    simp only [effect, hpc, run, BoundedFifo.step]
    rw [if_pos (by omega), Option.bind_some]
    exact congrArg some (List.drop_append_of_le_length hpopped).symm

/-- A step of the consumer does to the contents what its effect does. -/
theorem Inv.effect_consume (h : Inv exponent s) (hstep : s.consume exponent = some s') :
    run (BoundedFifo.step (2 ^ exponent)) s.contents (effect exponent s .consume) =
      some s'.contents := by
  have hsound := h.consumer
  unfold ConsumerSound at hsound
  cases consumes_of_step hstep with
  | refused hpc hempty =>
    have hall := (h.pop_refused hstep rfl).2
    have hnone : s.contents = [] := by
      rw [contents, hall, List.drop_length]
    simp only [effect, hpc, if_pos hempty, run, BoundedFifo.step]
    rw [if_pos hnone, Option.bind_some]
    rfl
  | admitted hpc hnonempty =>
    simp only [effect, hpc, if_neg hnonempty, run]
    rfl
  | copiedOut hpc =>
    simp only [effect, hpc, run]
    rfl
  | @stored _ item hpc =>
    rw [hpc] at hsound
    have hhead : s.contents.head? = some item := by
      rw [contents, List.head?_drop]
      exact hsound.2
    simp only [effect, hpc, run, BoundedFifo.step]
    rw [if_pos hhead, Option.bind_some, contents, List.tail_drop, contents, List.length_append]
    rfl

/-- Every step does to the contents what its effect does. -/
theorem Inv.effect_step (h : Inv exponent s) (hcapacity : exponent < w) {a : SpscAction α}
    (hstep : s.step exponent a = some s') :
    run (BoundedFifo.step (2 ^ exponent)) s.contents (effect exponent s a) = some s'.contents := by
  cases a with
  | callPush call item =>
    rw [SpscRun.step, SpscRun.callPush] at hstep
    split at hstep
    case h_1 => exact Option.some.inj hstep ▸ rfl
    case h_2 => contradiction
  | produce => exact h.effect_produce hcapacity hstep
  | callPop =>
    rw [SpscRun.step, SpscRun.callPop] at hstep
    split at hstep
    case h_1 => exact Option.some.inj hstep ▸ rfl
    case h_2 => contradiction
  | consume => exact h.effect_consume hstep

/-- Every interleaving of a producer and a consumer in which the write position does not wrap is
linearizable: it is a run of a bounded queue that answers each call at once, when the call ends. -/
theorem interleaving_linearizes (hcapacity : exponent < 64) {s : SpscRun 64 α}
    {actions : List (SpscAction α)} (hrun : run (SpscRun.step exponent) start actions = some s)
    (hpushed : s.pushed.length < 2 ^ 64) : Linearizes exponent actions start s where
  atomic := by
    have hinv : Guarded (SpscRun.step exponent) (fun t _ => Inv exponent t) (start : SpscRun 64 α)
        actions := by
      intro before a t hbefore ht
      obtain ⟨rest, rfl⟩ := (List.prefix_append before [a]).trans hbefore
      rw [run_append, ht, Option.bind_some] at hrun
      have hsound : Sound exponent t :=
        run_invariant (fun _ _ _ ih hstep => ih.step hcapacity hstep) (fun _ => start_inv exponent) ht
      exact hsound ((pushed_length_le_of_run hrun).trans_lt hpushed)
    exact hinv.run_outputs contents (fun _ _ _ h hstep => h.effect_step hcapacity hstep) hrun
  ended := fun _ _ hstep => effect_ne_nil_iff hstep

/-- In a queue of one slot the second push is refused while the pop of the first item is on its way,
and takes effect before it. -/
def refusedBetween : List (SpscAction ℕ) :=
  [.callPop, .callPush .push 7, .produce, .produce, .produce, .consume, .consume,
    .callPush .tryPush 8, .produce, .consume, .callPop, .consume]

theorem refusedBetween_linearizes :
    ∃ s : SpscRun 64 ℕ, run (SpscRun.step 0) start refusedBetween = some s ∧
      outputs (SpscRun.step 0) (effect 0) (start : SpscRun 64 ℕ) refusedBetween =
        [.enqueued 7, .full, .dequeued 7, .empty] ∧ Linearizes 0 refusedBetween start s := by
  refine ⟨_, rfl, rfl, interleaving_linearizes ?_ (rfl : run _ start refusedBetween = some _) ?_⟩
  · decide
  · decide

end Simulation

end SpscRun

end NanoRing
