import Mathlib.Algebra.BigOperators.Group.Finset.Basic
import Mathlib.Algebra.Order.BigOperators.Group.Finset
import Mathlib.Data.Fintype.Basic
import Mathlib.Data.Set.Card

/-!
# Resting orders as a finite map

The purpose of an order book: a map from references to resting orders, each with a side,
a price and the shares that remain. Nothing here knows how a book is stored. The totals per
side and price are what an aggregated book has to report; a change at one reference
changes them by the difference of the two orders' contributions.
-/

namespace NanoRing

/-- An order that rests in the book. -/
@[ext] structure RestingOrder (Side Price : Type*) where
  side : Side
  price : Price
  remaining : ℕ

/-- The resting orders by reference. -/
abbrev RestingBook (Ref Side Price : Type*) := Ref → Option (RestingOrder Side Price)

namespace RestingBook

variable {Ref Side Price : Type*}

/-- Some order rests at this side and price. -/
def LiveAt (b : RestingBook Ref Side Price) (side : Side) (price : Price) : Prop :=
  ∃ ref o, b ref = some o ∧ o.side = side ∧ o.price = price

/-- Every resting order has shares left. -/
def Positive (b : RestingBook Ref Side Price) : Prop := ∀ ref o, b ref = some o → 0 < o.remaining

section Update

variable [DecidableEq Ref]

def add (b : RestingBook Ref Side Price) (ref : Ref) (o : RestingOrder Side Price) :
    RestingBook Ref Side Price := Function.update b ref (some o)

/-- Fill an order, at most completely; a filled order leaves the book. -/
def execute (b : RestingBook Ref Side Price) (ref : Ref) (shares : ℕ) :
    RestingBook Ref Side Price :=
  match b ref with
  | none => b
  | some o =>
    let left := o.remaining - min shares o.remaining
    Function.update b ref (if left = 0 then none else some { o with remaining := left })

def delete (b : RestingBook Ref Side Price) (ref : Ref) : RestingBook Ref Side Price :=
  Function.update b ref none

/-- Exchange an order for a new one on the same side. -/
def replace (b : RestingBook Ref Side Price) (ref newRef : Ref) (price : Price) (shares : ℕ) :
    RestingBook Ref Side Price :=
  match b ref with
  | none => b
  | some o => (b.delete ref).add newRef ⟨o.side, price, shares⟩

/-- Deleting an unknown reference changes nothing. -/
theorem delete_of_absent {b : RestingBook Ref Side Price} {ref : Ref} (h : b ref = none) :
    b.delete ref = b := by
  rw [delete, ← h, Function.update_eq_self]

/-- The deleted reference is free, and so is every reference that was. -/
theorem delete_eq_none {b : RestingBook Ref Side Price} {ref newRef : Ref}
    (h : b newRef = none ∨ newRef = ref) : b.delete ref newRef = none := by
  rw [delete]
  by_cases hsame : newRef = ref
  · rw [hsame, Function.update_self]
  · rw [Function.update_of_ne hsame]
    exact h.resolve_right hsame

/-- A full fill is a deletion. -/
theorem execute_eq_delete {b : RestingBook Ref Side Price} {ref : Ref}
    {o : RestingOrder Side Price} (h : b ref = some o) {shares : ℕ} (hfull : o.remaining ≤ shares) :
    b.execute ref shares = b.delete ref := by
  simp only [execute, h, Nat.min_eq_right hfull, Nat.sub_self, if_true, delete]

/-- A partial fill reduces the remaining shares. -/
theorem execute_of_lt {b : RestingBook Ref Side Price} {ref : Ref}
    {o : RestingOrder Side Price} (h : b ref = some o) {shares : ℕ} (hless : shares < o.remaining) :
    b.execute ref shares =
      Function.update b ref (some { o with remaining := o.remaining - shares }) := by
  simp only [execute, h, Nat.min_eq_left hless.le, Nat.sub_ne_zero_of_lt hless, if_false]

end Update

/-! ## Totals -/

section Totals

variable [DecidableEq Side] [DecidableEq Price]

/-- What an entry contributes to the total of a side and price. -/
def contribution (entry : Option (RestingOrder Side Price)) (side : Side) (price : Price) : ℕ :=
  entry.elim 0 fun o => if o.side = side ∧ o.price = price then o.remaining else 0

@[simp] theorem contribution_none (side : Side) (price : Price) :
    contribution none side price = 0 := rfl

/-- An order contributes its remaining shares at its own side and price. -/
theorem contribution_self (o : RestingOrder Side Price) :
    contribution (some o) o.side o.price = o.remaining := by
  simp [contribution]

/-- An order contributes nothing elsewhere. -/
theorem contribution_of_ne {o : RestingOrder Side Price} {side : Side} {price : Price}
    (h : ¬ (o.side = side ∧ o.price = price)) : contribution (some o) side price = 0 := by
  simp [contribution, h]

/-- A fill takes as many shares of an order off its contribution as it takes off the order. -/
theorem execute_spec [DecidableEq Ref] {b : RestingBook Ref Side Price} {ref : Ref}
    {o : RestingOrder Side Price} (hentry : b ref = some o) (shares : ℕ) :
    ∃ entry, execute b ref shares = Function.update b ref entry ∧
      contribution entry o.side o.price + min shares o.remaining = o.remaining ∧
      ∀ side price, contribution entry side price ≤ contribution (b ref) side price := by
  rw [hentry]
  by_cases hfull : o.remaining ≤ shares
  · refine ⟨none, execute_eq_delete hentry hfull, ?_, fun _ _ => Nat.zero_le _⟩
    rw [contribution_none, Nat.zero_add, min_eq_right hfull]
  · have hless := Nat.lt_of_not_le hfull
    refine ⟨_, execute_of_lt hentry hless, ?_, fun side price => ?_⟩
    · have hown : contribution (some { o with remaining := o.remaining - shares }) o.side o.price =
          o.remaining - shares := contribution_self { o with remaining := o.remaining - shares }
      rw [hown, min_eq_left hless.le]
      omega
    · by_cases hat : o.side = side ∧ o.price = price
      · simp [contribution, hat]
      · have helse : contribution (some { o with remaining := o.remaining - shares }) side price = 0 :=
          contribution_of_ne hat
        exact helse.trans_le (Nat.zero_le _)

variable [Fintype Ref]

/-- The shares resting at a side and price. -/
def sharesAt (b : RestingBook Ref Side Price) (side : Side) (price : Price) : ℕ :=
  ∑ ref, contribution (b ref) side price

/-- A change at one reference changes a total by the difference of the contributions. -/
theorem sharesAt_update [DecidableEq Ref] (b : RestingBook Ref Side Price) (ref : Ref)
    (entry : Option (RestingOrder Side Price)) (side : Side) (price : Price) :
    sharesAt (Function.update b ref entry) side price + contribution (b ref) side price =
      sharesAt b side price + contribution entry side price := by
  unfold sharesAt
  rw [← Finset.add_sum_erase Finset.univ _ (Finset.mem_univ ref),
    ← Finset.add_sum_erase Finset.univ (fun ref => contribution (b ref) side price)
      (Finset.mem_univ ref), Function.update_self]
  have hrest : ∑ x ∈ Finset.univ.erase ref, contribution (Function.update b ref entry x) side price =
      ∑ x ∈ Finset.univ.erase ref, contribution (b x) side price := by
    refine Finset.sum_congr rfl fun x hx => ?_
    rw [Function.update_of_ne (Finset.ne_of_mem_erase hx)]
  rw [hrest]
  omega

/-- A new order adds its contribution to every total. -/
theorem sharesAt_add [DecidableEq Ref] {b : RestingBook Ref Side Price} {ref : Ref}
    (habsent : b ref = none) (o : RestingOrder Side Price) (side : Side) (price : Price) :
    sharesAt (add b ref o) side price = sharesAt b side price + contribution (some o) side price := by
  have h := sharesAt_update b ref (some o) side price
  rw [habsent, contribution_none, Nat.add_zero] at h
  exact h

/-- An order that loses shares takes as many off the total at its side and price. -/
theorem sharesAt_update_add [DecidableEq Ref] {b : RestingBook Ref Side Price} {ref : Ref}
    {o : RestingOrder Side Price} (hentry : b ref = some o)
    {entry : Option (RestingOrder Side Price)} {shares : ℕ}
    (hself : contribution entry o.side o.price + shares = o.remaining) :
    sharesAt (Function.update b ref entry) o.side o.price + shares = sharesAt b o.side o.price := by
  have hsum := sharesAt_update b ref entry o.side o.price
  rw [hentry, contribution_self] at hsum
  omega

/-- A change at one reference that contributes no more raises no total. -/
theorem sharesAt_update_le [DecidableEq Ref] {b : RestingBook Ref Side Price} {ref : Ref}
    {entry : Option (RestingOrder Side Price)} {side : Side} {price : Price}
    (hle : contribution entry side price ≤ contribution (b ref) side price) :
    sharesAt (Function.update b ref entry) side price ≤ sharesAt b side price := by
  have hsum := sharesAt_update b ref entry side price
  omega

/-- An order's own shares are part of the total at its side and price. -/
theorem contribution_le_sharesAt (b : RestingBook Ref Side Price) (ref : Ref) (side : Side)
    (price : Price) : contribution (b ref) side price ≤ sharesAt b side price :=
  Finset.single_le_sum (f := fun ref => contribution (b ref) side price)
    (fun _ _ => Nat.zero_le _) (Finset.mem_univ ref)

/-- A total is positive exactly where some order rests. -/
theorem sharesAt_pos_iff {b : RestingBook Ref Side Price} (hpos : b.Positive) (side : Side)
    (price : Price) : 0 < b.sharesAt side price ↔ b.LiveAt side price := by
  constructor
  · intro h
    obtain ⟨ref, -, hne⟩ := Finset.exists_ne_zero_of_sum_ne_zero (Nat.pos_iff_ne_zero.mp h)
    cases hentry : b ref with
    | none => simp [hentry] at hne
    | some o =>
      by_cases hat : o.side = side ∧ o.price = price
      · exact ⟨ref, o, hentry, hat.1, hat.2⟩
      · rw [hentry, contribution_of_ne hat] at hne
        contradiction
  · rintro ⟨ref, o, hentry, rfl, rfl⟩
    have hle := contribution_le_sharesAt b ref o.side o.price
    rw [hentry, contribution_self] at hle
    exact (hpos ref o hentry).trans_le hle

/-- The empty book has no shares anywhere. -/
theorem sharesAt_empty (side : Side) (price : Price) :
    sharesAt (fun _ : Ref => none) side price = 0 := by
  simp [sharesAt]

end Totals

/-! ## Numbers of orders -/

section Counts

/-- The number of orders that rest at a side and price. -/
noncomputable def ordersAt (b : RestingBook Ref Side Price) (side : Side) (price : Price) : ℕ :=
  {ref | ∃ o, b ref = some o ∧ o.side = side ∧ o.price = price}.ncard

/-- The same orders, each with a single share. -/
def units (b : RestingBook Ref Side Price) : RestingBook Ref Side Price :=
  fun ref => (b ref).map fun o => { o with remaining := 1 }

theorem units_update [DecidableEq Ref] (b : RestingBook Ref Side Price) (ref : Ref)
    (entry : Option (RestingOrder Side Price)) :
    units (Function.update b ref entry) =
      Function.update (units b) ref (entry.map fun o => { o with remaining := 1 }) := by
  funext ref'
  exact Function.apply_update (fun _ => Option.map fun o => { o with remaining := 1 }) b ref entry ref'

/-- There are orders exactly where some order rests. -/
theorem ordersAt_pos_iff [Finite Ref] (b : RestingBook Ref Side Price) (side : Side) (price : Price) :
    0 < ordersAt b side price ↔ b.LiveAt side price := by
  rw [ordersAt, Set.ncard_pos]
  rfl

variable [DecidableEq Side] [DecidableEq Price] [Fintype Ref]

/-- Counting orders is summing single shares. -/
theorem ordersAt_eq_sharesAt (b : RestingBook Ref Side Price) (side : Side) (price : Price) :
    ordersAt b side price = sharesAt (units b) side price := by
  classical
  have hone (ref : Ref) : contribution (units b ref) side price =
      if ∃ o, b ref = some o ∧ o.side = side ∧ o.price = price then 1 else 0 := by
    unfold units
    cases b ref with
    | none => simp
    | some o => simp [contribution]
  rw [ordersAt, sharesAt, Finset.sum_congr rfl fun ref _ => hone ref, ← Finset.card_filter,
    ← Set.ncard_coe_finset, Finset.coe_filter_univ]

/-- A change at one reference changes the number of orders by one at most. -/
theorem ordersAt_update [DecidableEq Ref] (b : RestingBook Ref Side Price) (ref : Ref)
    (entry : Option (RestingOrder Side Price)) (side : Side) (price : Price) :
    ordersAt (Function.update b ref entry) side price + contribution (units b ref) side price =
      ordersAt b side price +
        contribution (entry.map fun o => { o with remaining := 1 }) side price := by
  rw [ordersAt_eq_sharesAt, ordersAt_eq_sharesAt, units_update]
  exact sharesAt_update (units b) ref _ side price

/-- A single share counts at the side and price of its order. -/
theorem contribution_unit (o : RestingOrder Side Price) (side : Side) (price : Price) :
    contribution (some { o with remaining := 1 }) side price =
      if o.side = side ∧ o.price = price then 1 else 0 := rfl

/-- A new order is one more at its side and price. -/
theorem ordersAt_add [DecidableEq Ref] {b : RestingBook Ref Side Price} {ref : Ref}
    (habsent : b ref = none) (o : RestingOrder Side Price) (side : Side) (price : Price) :
    ordersAt (add b ref o) side price =
      ordersAt b side price + if o.side = side ∧ o.price = price then 1 else 0 := by
  have h := ordersAt_update b ref (some o) side price
  rwa [units, habsent, Option.map_none, contribution_none, Nat.add_zero, Option.map_some,
    contribution_unit] at h

/-- A deleted order is one less at its side and price. -/
theorem ordersAt_delete [DecidableEq Ref] {b : RestingBook Ref Side Price} {ref : Ref}
    {o : RestingOrder Side Price} (hentry : b ref = some o) (side : Side) (price : Price) :
    (ordersAt (delete b ref) side price + if o.side = side ∧ o.price = price then 1 else 0) =
      ordersAt b side price := by
  have h := ordersAt_update b ref none side price
  rwa [units, hentry, Option.map_some, contribution_unit, Option.map_none, contribution_none,
    Nat.add_zero] at h

/-- An order that keeps its place is counted as before. -/
theorem ordersAt_update_remaining [DecidableEq Ref] {b : RestingBook Ref Side Price} {ref : Ref}
    {o : RestingOrder Side Price} (hentry : b ref = some o) (left : ℕ) (side : Side)
    (price : Price) :
    ordersAt (Function.update b ref (some { o with remaining := left })) side price =
      ordersAt b side price := by
  have h := ordersAt_update b ref (some { o with remaining := left }) side price
  rw [units, hentry, Option.map_some, Option.map_some] at h
  exact Nat.add_right_cancel h

/-- Orders with shares left are no more than their shares. -/
theorem ordersAt_le_sharesAt {b : RestingBook Ref Side Price} (hpos : b.Positive) (side : Side)
    (price : Price) : ordersAt b side price ≤ sharesAt b side price := by
  rw [ordersAt_eq_sharesAt]
  refine Finset.sum_le_sum fun ref _ => ?_
  unfold units
  cases hentry : b ref with
  | none => exact le_rfl
  | some o =>
    have ho := hpos ref o hentry
    simp only [contribution, Option.map_some, Option.elim_some]
    split
    · exact ho
    · exact le_rfl

end Counts

end RestingBook

end NanoRing
