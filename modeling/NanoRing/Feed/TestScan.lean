import NanoRing.Feed.SoaScan
import NanoRing.Feed.TestOrders

/-!
# The decode experiment on the generated data

The experiment decodes the generated records in the vector build and counts the orders of one ticker
above a price in three ways: over the decoded entries, over their fields in separate arrays, and
over those arrays with vector comparisons. Generated prices are below `2^31`, where the signed
comparison of the AVX2 build is exact, so all three count what was drawn.
-/

namespace NanoRing

namespace Experiments

open Feed SimdDecoder

variable {α β : Type*}

/-! ## Counts over indices and over entries -/

/-- Counting the indices that pass a test of their entries is counting those entries. -/
theorem count_index_eq_countP {p : α → Prop} [DecidablePred p] {q : ℕ → Prop} [DecidablePred q]
    (entries : List α) (hq : ∀ i (hi : i < entries.length), q i ↔ p entries[i]) :
    Nat.count q entries.length = entries.countP (fun a => p a) := by
  induction entries using List.reverseRecOn with
  | nil => rfl
  | append_singleton entries a ih =>
    have hbefore : ∀ i (hi : i < entries.length), q i ↔ p entries[i] := by
      intro i hi
      have hlt : i < (entries ++ [a]).length := by
        rw [List.length_append]
        exact Nat.lt_add_right _ hi
      rw [hq i hlt, List.getElem_append_left hi]
    have hlast : q entries.length ↔ p a := by
      have hlt : entries.length < (entries ++ [a]).length := by
        rw [List.length_append]
        exact Nat.lt_succ_self _
      rw [hq entries.length hlt, List.getElem_concat_length rfl]
    rw [List.length_append, List.length_singleton, Nat.count_succ, ih hbefore, List.countP_append,
      List.countP_singleton]
    simp only [hlast, decide_eq_true_eq]

/-- Two lists whose entries correspond have as many entries that pass corresponding tests. -/
theorem countP_eq_of_forall₂ {R : α → β → Prop} {p : α → Prop} [DecidablePred p] {q : β → Prop}
    [DecidablePred q] {as : List α} {bs : List β} (h : List.Forall₂ R as bs)
    (hpq : ∀ a b, R a b → (p a ↔ q b)) : as.countP (fun a => p a) = bs.countP (fun b => q b) := by
  induction h with
  | nil => rfl
  | cons hfirst _ ih => simp only [List.countP_cons, ih, hpq _ _ hfirst]

/-! ## The scans -/

/-- The scan over the decoded entries. -/
def aosScan (output : List DecodedOrder) (targetTicker : UInt64) (priceThreshold : UInt32) : ℕ :=
  output.foldl (fun matchCount order =>
    if order.tickerKey = targetTicker ∧ order.price > priceThreshold then matchCount + 1
    else matchCount) 0

/-- The ticker keys of the decoded entries, in an array of their own. -/
def soaTickers (output : List DecodedOrder) : Vector UInt64 output.length :=
  ⟨(output.map DecodedOrder.tickerKey).toArray, by simp⟩

/-- The prices of the decoded entries, in an array of their own. -/
def soaPrices (output : List DecodedOrder) : Vector UInt32 output.length :=
  ⟨(output.map DecodedOrder.price).toArray, by simp⟩

variable {output : List DecodedOrder} {targetTicker : UInt64} {priceThreshold : UInt32}

/-- The number of entries that a scan is to find. -/
def matchingEntries (output : List DecodedOrder) (targetTicker : UInt64) (priceThreshold : UInt32) :
    ℕ :=
  output.countP fun order => order.tickerKey = targetTicker ∧ order.price > priceThreshold

theorem aosScan_eq : aosScan output targetTicker priceThreshold =
    matchingEntries output targetTicker priceThreshold := by
  induction output using List.reverseRecOn with
  | nil => rfl
  | append_singleton output order ih =>
    rw [aosScan, List.foldl_concat, ← aosScan, ih, matchingEntries, matchingEntries,
      List.countP_append, List.countP_singleton]
    simp only [decide_eq_true_eq]
    split <;> rfl

theorem count_matches_eq :
    Nat.count (Matches (soaTickers output) (soaPrices output) targetTicker priceThreshold)
        output.length = matchingEntries output targetTicker priceThreshold := by
  refine count_index_eq_countP output fun i hi => ?_
  rw [matches_iff hi]
  simp [soaTickers, soaPrices]

/-- Entries with low prices are counted alike by every build, for a low threshold. -/
theorem soaScan_of_low (hprices : ∀ order ∈ output, order.price < 0x80000000)
    (hthreshold : priceThreshold < 0x80000000) (build : SimdBuild) :
    soaScan build (soaTickers output) (soaPrices output) targetTicker priceThreshold =
      some (matchingEntries output targetTicker priceThreshold) := by
  have hsame : ∀ i < output.length,
      (MatchesAvx2 (soaTickers output) (soaPrices output) targetTicker priceThreshold i ↔
        Matches (soaTickers output) (soaPrices output) targetTicker priceThreshold i) := by
    intro i hi
    by_cases hblock : i < BlockLoop.blocksEnd 4 output.length
    · refine (matchesAvx2_iff_matches_iff hi hblock).mpr fun _ => ?_
      have hprice : (soaPrices output)[i] = output[i].price := by simp [soaPrices]
      rw [SameHalf, hprice]
      exact iff_of_true (hprices _ (List.getElem_mem hi)) hthreshold
    · exact matchesAvx2_iff_of_le (Nat.le_of_not_lt hblock)
  cases build with
  | neon => rw [soaScan_neon, count_matches_eq]
  | avx2 => rw [soaScan_avx2, count_matchesAvx2_eq_iff.mpr hsame, count_matches_eq]
  | scalar => rw [soaScan_scalar, count_matches_eq]

/-- Whatever was drawn, and in whichever builds the records are decoded and the arrays scanned, the
scans of the experiment count the draws of the ticker above the threshold. -/
theorem scans_count_draws (draws : List Draw) (hfits : FitsArray draws) (targetTicker : UInt64)
    (hthreshold : priceThreshold < 0x80000000) :
    ∃ output, (∀ build, decodeAddOrdersSimd build
        ((generateTestData draws).rawAddOrders.flatMap AddOrderStruct.bytes)
        (generateTestData draws).rawAddOrders.length = some (output.length, output)) ∧
      aosScan output targetTicker priceThreshold =
        draws.countP (fun d => d.tickerKey tickers = targetTicker ∧ d.price > priceThreshold) ∧
      ∀ build, soaScan build (soaTickers output) (soaPrices output) targetTicker priceThreshold =
        some (draws.countP fun d => d.tickerKey tickers = targetTicker ∧ d.price > priceThreshold) := by
  have h := generated draws hfits
  have hentries : (generateTestData draws).rawAddOrders.map (fun raw => addOrder raw.bytes) =
      (generateTestData draws).orders.map DecodedOrder.asAdd := h.raws
  have hspells : List.Forall₂ (fun d order => d.Fills tickers order) draws
      ((generateTestData draws).orders.map DecodedOrder.asAdd) :=
    List.forall₂_map_right_iff.mpr (h.spells.imp fun _ _ hd =>
      ⟨hd.tickerKey, hd.price, hd.shares, hd.side⟩)
  have hcount : matchingEntries ((generateTestData draws).orders.map DecodedOrder.asAdd)
      targetTicker priceThreshold =
        draws.countP fun d => d.tickerKey tickers = targetTicker ∧ d.price > priceThreshold :=
    (countP_eq_of_forall₂ hspells fun _ _ hd => by rw [hd.tickerKey, hd.price]).symm
  refine ⟨(generateTestData draws).orders.map DecodedOrder.asAdd, fun build => ?_,
    aosScan_eq.trans hcount, fun build => ?_⟩
  · rw [decodeAddOrdersSimd_structs, ← hentries, List.length_map]
  · rw [← hcount]
    refine soaScan_of_low (fun order horder => ?_) hthreshold build
    obtain ⟨i, hi, rfl⟩ := List.getElem_of_mem horder
    have hd := hspells.get (hspells.length_eq ▸ hi) hi
    rw [List.get_eq_getElem, List.get_eq_getElem] at hd
    rw [hd.price]
    exact UInt32.lt_of_le_of_lt (Draw.price_range _).2 (by decide)

/-- One of three draws is of AAPL above 90000, and every scan finds it. -/
theorem threeDraws_scanned :
    ∃ output, aosScan output (.ofNat (ByteOrder.little appleStock.1)) 90000 = 1 ∧
      ∀ build, soaScan build (soaTickers output) (soaPrices output)
        (.ofNat (ByteOrder.little appleStock.1)) 90000 = some 1 := by
  have hdrawn : threeDraws.countP (fun d =>
      d.tickerKey tickers = .ofNat (ByteOrder.little appleStock.1) ∧ d.price > 90000) = 1 := by
    decide +kernel
  obtain ⟨output, -, haos, hsoa⟩ := scans_count_draws threeDraws threeDraws_fit
    (.ofNat (ByteOrder.little appleStock.1)) (by decide : (90000 : UInt32) < 0x80000000)
  rw [hdrawn] at haos hsoa
  exact ⟨output, haos, hsoa⟩

end Experiments

end NanoRing
