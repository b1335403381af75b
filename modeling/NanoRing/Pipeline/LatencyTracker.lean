import NanoRing.Common.OrderStatistics
import Mathlib.Data.List.Induction
import Mathlib.Logic.Function.Basic

/-!
# The latency tracker

A fixed buffer of samples with a count; a sample that finds the buffer full is dropped.
`percentile` reads the sorted buffer at the index `p * count`, whose product is taken in
floating point: here the truncated product is a parameter. Whatever it is, the reported value
is the order statistic of the samples that the index stands for.
-/

namespace NanoRing

/-- An array that is written in order, when its next place is written. -/
theorem map_range_update (array : ℕ → ℕ) (n value : ℕ) :
    (List.range (n + 1)).map (Function.update array n value) =
      (List.range n).map array ++ [value] := by
  have hkept : (List.range n).map (Function.update array n value) = (List.range n).map array :=
    List.map_congr_left fun i hi => Function.update_of_ne (List.mem_range.mp hi).ne _ _
  rw [List.range_succ, List.map_append, hkept, List.map_singleton, Function.update_self]

/-- `MAX_SAMPLES`. -/
def maxSamples : ℕ := 1000000

/-- The buffer and the number of samples in it, which never exceeds its size. -/
structure LatencyTracker where
  samples : ℕ → ℕ
  count : ℕ
  count_le : count ≤ maxSamples

namespace LatencyTracker

/-- The freshly built tracker. -/
def empty : LatencyTracker where
  samples := fun _ => 0
  count := 0
  count_le := Nat.zero_le _

/-- `record`. -/
def record (l : LatencyTracker) (ns : ℕ) : LatencyTracker :=
  if h : l.count < maxSamples then
    { samples := Function.update l.samples l.count ns
      count := l.count + 1
      count_le := h }
  else l

/-- The samples from `begin()` to `begin() + count`. -/
def recorded (l : LatencyTracker) : List ℕ := (List.range l.count).map l.samples

/-- `sort_samples`: only the recorded part of the buffer is sorted. -/
def sortSamples (l : LatencyTracker) : LatencyTracker :=
  { l with samples := fun i => (l.recorded.mergeSort (· ≤ ·)).getD i (l.samples i) }

/-- `percentile(p)`, where `scaled` is `static_cast<size_t>(p * count)`. -/
def percentile (l : LatencyTracker) (scaled : ℕ) : ℕ :=
  if l.count = 0 then 0
  else
    let idx := if scaled ≥ l.count then l.count - 1 else scaled
    l.samples idx

/-- Record samples one after another. -/
def recordAll (l : LatencyTracker) (samples : List ℕ) : LatencyTracker := samples.foldl record l

@[simp] theorem length_recorded (l : LatencyTracker) : l.recorded.length = l.count := by
  rw [recorded, List.length_map, List.length_range]

theorem getElem_recorded (l : LatencyTracker) {i : ℕ} (hi : i < l.recorded.length) :
    l.recorded[i] = l.samples i := by
  simp only [recorded, List.getElem_map, List.getElem_range]

theorem recorded_record (l : LatencyTracker) (ns : ℕ) :
    (l.record ns).recorded = if l.count < maxSamples then l.recorded ++ [ns] else l.recorded := by
  unfold record
  split
  · exact map_range_update l.samples l.count ns
  · rfl

/-- A full buffer drops the sample. -/
theorem count_record (l : LatencyTracker) (ns : ℕ) :
    (l.record ns).count = min (l.count + 1) maxSamples := by
  have hle := l.count_le
  unfold record
  split
  · rename_i hroom
    exact (Nat.min_eq_left hroom).symm
  · omega

theorem count_record_le (l : LatencyTracker) (ns : ℕ) : (l.record ns).count ≤ l.count + 1 :=
  (l.count_record ns).trans_le (Nat.min_le_left _ _)

theorem mem_recorded_record {l : LatencyTracker} {ns ns' : ℕ} (h : ns' ∈ (l.record ns).recorded) :
    ns' ∈ l.recorded ∨ ns' = ns := by
  rw [recorded_record] at h
  split at h
  · exact (List.mem_append.mp h).imp_right List.mem_singleton.mp
  · exact .inl h

/-- The tracker keeps the samples that find room, in order. -/
theorem recorded_recordAll (ns : List ℕ) : (empty.recordAll ns).recorded = ns.take maxSamples := by
  induction ns using List.reverseRecOn with
  | nil => rfl
  | append_singleton ns sample ih =>
    have hcount := congrArg List.length ih
    rw [length_recorded, List.length_take] at hcount
    rw [recordAll, List.foldl_concat, ← recordAll, recorded_record, ih, hcount]
    by_cases hroom : ns.length < maxSamples
    · rw [Nat.min_eq_right hroom.le, if_pos hroom, List.take_of_length_le hroom.le,
        List.take_of_length_le]
      rw [List.length_append, List.length_singleton]
      exact hroom
    · have hfull := Nat.le_of_not_lt hroom
      rw [Nat.min_eq_left hfull, if_neg (lt_irrefl _), List.take_append_of_le_length hfull]

/-- Sorting arranges the recorded samples. -/
theorem recorded_sortSamples (l : LatencyTracker) :
    l.sortSamples.recorded = l.recorded.mergeSort (· ≤ ·) := by
  have hlength : (l.recorded.mergeSort (· ≤ ·)).length = l.count := by
    rw [List.length_mergeSort, length_recorded]
  refine List.ext_getElem ?_ fun i hi hi' => ?_
  · rw [hlength, length_recorded]
    rfl
  · rw [getElem_recorded]
    change (l.recorded.mergeSort (· ≤ ·)).getD i _ = _
    rw [List.getD_eq_getElem?_getD, List.getElem?_eq_getElem hi', Option.getD_some]

/-- The index that `percentile` reads. -/
theorem percentile_eq_getElem {l : LatencyTracker} (scaled : ℕ)
    (h : min scaled (l.count - 1) < l.recorded.length) :
    l.percentile scaled = l.recorded[min scaled (l.count - 1)] := by
  have hcount : l.count ≠ 0 := by
    rw [length_recorded] at h
    omega
  have hidx : (if scaled ≥ l.count then l.count - 1 else scaled) = min scaled (l.count - 1) := by
    split <;> omega
  rw [percentile, if_neg hcount, hidx, getElem_recorded]

/-- Whatever samples are recorded and whatever the truncated product, `percentile` reports after
the sort the kept sample of the rank that its index stands for. -/
theorem percentile_hasRank {ns : List ℕ} (hsamples : ns ≠ []) (scaled : ℕ) :
    OrderStatistics.HasRank (ns.take maxSamples)
      (min scaled ((ns.take maxSamples).length - 1))
      ((empty.recordAll ns).sortSamples.percentile scaled) := by
  have hkept := recorded_recordAll ns
  have hsorted := recorded_sortSamples (empty.recordAll ns)
  rw [hkept] at hsorted
  have hcount : (empty.recordAll ns).sortSamples.count = (ns.take maxSamples).length := by
    rw [← hkept, length_recorded]
    rfl
  have hpos : 0 < (ns.take maxSamples).length := by
    rw [List.length_take]
    exact lt_min (by decide) (List.length_pos_iff.mpr hsamples)
  have hidx : min scaled ((empty.recordAll ns).sortSamples.count - 1) <
      (empty.recordAll ns).sortSamples.recorded.length := by
    rw [length_recorded, hcount]
    omega
  rw [percentile_eq_getElem scaled hidx, ← hcount]
  refine OrderStatistics.HasRank.perm ?_ (List.mergeSort_perm (ns.take maxSamples) (· ≤ ·))
  rw [← hsorted]
  refine OrderStatistics.hasRank_getElem ?_ hidx
  rw [hsorted]
  exact List.pairwise_mergeSort' _ _

/-- The middle one of three samples. -/
theorem three_samples_middle :
    OrderStatistics.HasRank ([30, 10, 20].take maxSamples)
      (min 1 (([30, 10, 20].take maxSamples).length - 1))
      ((empty.recordAll [30, 10, 20]).sortSamples.percentile 1) :=
  percentile_hasRank (by decide) 1

end LatencyTracker

end NanoRing
