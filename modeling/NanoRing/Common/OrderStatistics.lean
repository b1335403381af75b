import Mathlib.Data.List.Count
import Mathlib.Data.List.Sort

/-!
# Order statistics

The entry at an index of a sorted list is the order statistic of that rank of every list with
the same entries: at most that many entries lie below it, and more than that many do not lie
above it.
-/

namespace OrderStatistics

variable {α : Type*} [LinearOrder α] {l sorted : List α} {i j : ℕ}

/-- `v` is an entry of rank `i`. -/
structure HasRank (l : List α) (i : ℕ) (v : α) : Prop where
  mem : v ∈ l
  below_le : l.countP (fun x => x < v) ≤ i
  lt_within : i < l.countP (fun x => x ≤ v)

theorem HasRank.perm (h : HasRank sorted i v) (hperm : sorted.Perm l) : HasRank l i v where
  mem := hperm.mem_iff.mp h.mem
  below_le := hperm.countP_eq _ ▸ h.below_le
  lt_within := hperm.countP_eq _ ▸ h.lt_within

/-- An entry of a sorted list has the rank of its index. -/
theorem hasRank_getElem (hsorted : sorted.Pairwise (· ≤ ·)) (hi : i < sorted.length) :
    HasRank sorted i sorted[i] := by
  have hsplit := List.take_append_drop i sorted
  rw [List.drop_eq_getElem_cons hi] at hsplit
  have hcount (p : α → Bool) : sorted.countP p =
      (sorted.take i).countP p + (sorted[i] :: sorted.drop (i + 1)).countP p := by
    rw [← List.countP_append, hsplit]
  obtain ⟨-, hrest, hbefore⟩ := List.pairwise_append.mp (hsplit.symm ▸ hsorted)
  have hafter : ∀ x ∈ sorted[i] :: sorted.drop (i + 1), sorted[i] ≤ x := by
    intro x hx
    rcases List.mem_cons.mp hx with rfl | hx
    · exact le_rfl
    · exact List.rel_of_pairwise_cons hrest hx
  refine ⟨List.getElem_mem hi, ?_, ?_⟩
  · have hnone : (sorted[i] :: sorted.drop (i + 1)).countP (fun x => x < sorted[i]) = 0 :=
      List.countP_eq_zero.mpr fun x hx hlt => (hafter x hx).not_gt (of_decide_eq_true hlt)
    rw [hcount, hnone, Nat.add_zero]
    exact List.countP_le_length.trans (List.length_take_le _ _)
  · have hall : (sorted.take i).countP (fun x => x ≤ sorted[i]) = i := by
      rw [List.countP_eq_length.mpr fun x hx => decide_eq_true (hbefore x hx _ List.mem_cons_self),
        List.length_take_of_le hi.le]
    have hself : 0 < (sorted[i] :: sorted.drop (i + 1)).countP (fun x => x ≤ sorted[i]) :=
      List.countP_pos_iff.mpr ⟨sorted[i], List.mem_cons_self, decide_eq_true le_rfl⟩
    rw [hcount, hall]
    exact Nat.lt_add_of_pos_right hself

end OrderStatistics
