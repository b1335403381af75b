import NanoRing.Book.OrderContents
import NanoRing.Common.Schedule
import Mathlib.Data.List.Infix

/-!
# Histories of the flat order map

An insertion stops at the first unoccupied slot of its probe path. When that is a freed
slot ahead of the slot that its reference already has, the reference ends up with two
slots, and a later erasure uncovers the older record. A history acts as a map at every
point exactly when no insertion of it does this.
-/

namespace NanoRing

namespace FlatOrderMap

/-- A call on the map. -/
inductive MapOp
  | insert (orderRef : UInt64) (order : LiveOrder)
  | erase (orderRef : UInt64)

def applyOp (m : FlatOrderMap) : MapOp → FlatOrderMap
  | .insert orderRef order => m.insert orderRef order
  | .erase orderRef => m.erase orderRef

/-- The map after a history of calls on a fresh one. -/
def afterOps (ops : List MapOp) : FlatOrderMap := ops.foldl applyOp empty

/-- The effect of one call on the record that a map should give for `k`. -/
def latestStep (k : UInt64) (found : Option LiveOrder) : MapOp → Option LiveOrder
  | .insert orderRef order => if orderRef = k then some (stored k order) else found
  | .erase orderRef => if orderRef = k then none else found

/-- The record given to the latest insertion of `k` that no later erasure of `k` followed. -/
def latest (ops : List MapOp) (k : UInt64) : Option LiveOrder := ops.foldl (latestStep k) none

/-- No reference occupies two slots. -/
def OneSlotPerRef (m : FlatOrderMap) : Prop :=
  ∀ i < m.capacity, ∀ j < m.capacity, (m.slots i).occupied = true → (m.slots j).occupied = true →
    (m.slots i).orderRef = (m.slots j).orderRef → i = j

/-- At every point of the history, lookups give the latest records and no reference has a
second entry. -/
def ActsAsMap (ops : List MapOp) : Prop :=
  ∀ pre, pre <+: ops → (afterOps pre).OneSlotPerRef ∧
    ∀ k, (afterOps pre).lookup k = latest pre k

/-- One slot per reference is distinctness of the keys in the table. -/
theorem oneSlotPerRef_iff (m : FlatOrderMap) : m.OneSlotPerRef ↔ m.table.Distinct := by
  simp only [OneSlotPerRef, ProbeTable.Table.Distinct, table_capacity, table_cell,
    cellOf_eq_full_iff]
  constructor
  · rintro h i hi j hj k v w ⟨hocci, hrefi, -⟩ ⟨hoccj, hrefj, -⟩
    exact h i hi j hj hocci hoccj (hrefi.trans hrefj.symm)
  · intro h i hi j hj hocci hoccj href
    exact h i hi j hj _ _ _ ⟨hocci, rfl, rfl⟩ ⟨hoccj, href.symm, rfl⟩

theorem afterOps_snoc (ops : List MapOp) (op : MapOp) :
    afterOps (ops ++ [op]) = applyOp (afterOps ops) op := List.foldl_concat applyOp empty op ops

theorem latest_snoc_insert (ops : List MapOp) (k : UInt64) (o : LiveOrder) :
    latest (ops ++ [.insert k o]) = Function.update (latest ops) k (some (stored k o)) := by
  funext key
  rw [latest, List.foldl_concat, latestStep]
  by_cases hkey : k = key
  · subst hkey
    simp
  · rw [if_neg hkey, Function.update_of_ne (Ne.symm hkey), latest]

theorem latest_snoc_erase (ops : List MapOp) (k : UInt64) :
    latest (ops ++ [.erase k]) = Function.update (latest ops) k none := by
  funext key
  rw [latest, List.foldl_concat, latestStep]
  by_cases hkey : k = key
  · subst hkey
    simp
  · rw [if_neg hkey, Function.update_of_ne (Ne.symm hkey), latest]

/-- Every history keeps the map well formed, whatever its references. -/
theorem afterOps_wellFormed (ops : List MapOp) : (afterOps ops).WellFormed := by
  induction ops using List.reverseRecOn with
  | nil => exact empty_wellFormed
  | append_singleton ops op ih =>
    rw [afterOps_snoc]
    cases op with
    | insert k o => exact ih.insert k o
    | erase k => exact ih.erase k

/-- A history ends as a map exactly when its slots represent the latest records. -/
theorem represents_latest_iff (ops : List MapOp) :
    (afterOps ops).Represents (latest ops) ↔
      (afterOps ops).OneSlotPerRef ∧ ∀ k, (afterOps ops).lookup k = latest ops k := by
  constructor
  · intro h
    exact ⟨(oneSlotPerRef_iff _).mpr h.distinct, h.lookup_eq⟩
  · rintro ⟨hone, hlookup⟩
    have hw := afterOps_wellFormed ops
    have hdistinct := (oneSlotPerRef_iff _).mp hone
    refine ⟨hw, hdistinct, fun k o => ?_⟩
    rw [← hlookup k, hw.shaped.lookup_eq, ProbeTable.Table.lookup_eq_some_iff hw.probed hdistinct]

/-- What an erasure always keeps holds at every point of a history exactly when each insertion
of it keeps it. -/
theorem forall_insert_iff {P : List MapOp → Prop} {Q : List MapOp → UInt64 → Prop}
    {ops : List MapOp} (hnil : P [])
    (hinsert : ∀ done k o, P done → (P (done ++ [.insert k o]) ↔ Q done k))
    (herase : ∀ done k, P done → P (done ++ [.erase k])) :
    (∀ done, done <+: ops → P done) ↔
      ∀ done k o, done ++ [.insert k o] <+: ops → Q done k := by
  rw [Schedule.forall_prefix_iff (K := fun done op => ∀ k o, op = .insert k o → Q done k) hnil]
  · refine ⟨fun h done k o hdone => h done _ hdone k o rfl, fun h done op hdone k o hop => ?_⟩
    exact h done k o (hop ▸ hdone)
  · intro done op _ hdone
    have hbefore := hdone done List.prefix_rfl
    cases op with
    | insert k o =>
      rw [hinsert done k o hbefore]
      exact ⟨fun hkeeps k' o' heq => by cases heq; exact hkeeps, fun hkeeps => hkeeps k o rfl⟩
    | erase k =>
      exact iff_of_true (herase done k hbefore) fun k' o' heq => by cases heq

/-- A history acts as a map at every point exactly when no insertion of it reuses a freed
slot ahead of the slot that holds its reference. -/
theorem actsAsMap_iff (ops : List MapOp) :
    ActsAsMap ops ↔
      ∀ pre k o, pre ++ [.insert k o] <+: ops → (afterOps pre).InsertInPlace k := by
  simp only [ActsAsMap, ← represents_latest_iff]
  refine forall_insert_iff empty_represents (fun done k o h => ?_) fun done k h => ?_
  · rw [afterOps_snoc, latest_snoc_insert]
    exact ⟨fun hafter => (h.distinct_insert_iff k o).mp hafter.distinct, fun hplace => h.insert hplace⟩
  · rw [afterOps_snoc, latest_snoc_erase]
    exact h.erase k

/-- References `0` and `6419` share a home slot; the second insertion of `6419` reuses the
slot freed by `0`, and erasing `6419` then uncovers its first record. -/
def collidingOps : List MapOp :=
  [.insert 0 { price := 10, remainingShares := 1, side := sideBuy },
    .insert 6419 { price := 20, remainingShares := 2, side := sideBuy },
    .erase 0,
    .insert 6419 { price := 30, remainingShares := 3, side := sideBuy },
    .erase 6419]

/-- The erased reference is still found, with the record of its first insertion. -/
theorem collidingOps_not_actsAsMap :
    ((afterOps collidingOps).lookup 6419).map LiveOrder.price = some 20 ∧
      latest collidingOps 6419 = none ∧ ¬ ActsAsMap collidingOps := by
  have hfound : ((afterOps collidingOps).lookup 6419).map LiveOrder.price = some 20 := by
    decide +kernel
  have hlatest : latest collidingOps 6419 = none := by decide +kernel
  refine ⟨hfound, hlatest, fun h => ?_⟩
  rw [(h collidingOps (List.prefix_refl _)).2 6419, hlatest] at hfound
  contradiction

end FlatOrderMap

end NanoRing
