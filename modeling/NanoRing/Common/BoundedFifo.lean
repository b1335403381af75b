import Mathlib.Data.List.Basic
import Mathlib.Data.Nat.Notation

/-!
# A bounded queue

A bounded queue that answers each call at once: the specification of a queue whose calls take many
steps.
-/

/-- A call on a bounded queue, with its answer. -/
inductive FifoCall (α : Type*)
  | enqueued (item : α)
  | full
  | dequeued (item : α)
  | empty
deriving DecidableEq

namespace BoundedFifo

variable {α : Type*} [DecidableEq α]

/-- The queue answers a call; a call cannot have any other answer. -/
def step (capacity : ℕ) (items : List α) : FifoCall α → Option (List α)
  | .enqueued item => if items.length < capacity then some (items ++ [item]) else none
  | .full => if items.length = capacity then some items else none
  | .dequeued item => if items.head? = some item then some items.tail else none
  | .empty => if items = [] then some items else none

end BoundedFifo
