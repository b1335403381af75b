import NanoRing.Feed.BatchDecoder
import Mathlib.Data.Nat.Count

/-!
# The scan over separate arrays

The benchmark that compares layouts counts the decoded orders with a given ticker and a
price above a threshold, on arrays of the tickers and of the prices. NEON compares the
prices as unsigned numbers and AVX2 as signed ones. The two orders differ on prices and
thresholds on different sides of `2^31`.
-/

namespace NanoRing

namespace Experiments

open BlockLoop VectorLanes VectorIntrinsics

variable {n : ℕ}

/-- One index of the scalar scan. -/
def scanOne (tickers : Vector UInt64 n) (prices : Vector UInt32 n) (targetTicker : UInt64)
    (priceThreshold : UInt32) (i : ℕ) (matchCount : ℕ) : Option ℕ := do
  let ticker ← tickers[i]?
  let price ← prices[i]?
  return if ticker = targetTicker ∧ price > priceThreshold then matchCount + 1 else matchCount

/-- Four indices with NEON. -/
def scanBlockNeon (tickers : Vector UInt64 n) (prices : Vector UInt32 n) (targetTicker : UInt64)
    (priceThreshold : UInt32) (i : ℕ) (matchCount : ℕ) : Option ℕ := do
  let targetVec := vdupqNU64 targetTicker
  let threshVec := vdupqNU32 priceThreshold
  let t01 ← vld1qU64 tickers i
  let t23 ← vld1qU64 tickers (i + 2)
  let cmp01 := vceqqU64 t01 targetVec
  let cmp23 := vceqqU64 t23 targetVec
  let prices ← vld1qU32 prices i
  let priceCmp := vcgtqU32 prices threshVec
  let tickerMask := vcombineU32 (vmovnU64 cmp01) (vmovnU64 cmp23)
  let combined := vandqU32 tickerMask priceCmp
  let matchCount := matchCount + if vgetqLaneU32 combined 0 ≠ 0 then 1 else 0
  let matchCount := matchCount + if vgetqLaneU32 combined 1 ≠ 0 then 1 else 0
  let matchCount := matchCount + if vgetqLaneU32 combined 2 ≠ 0 then 1 else 0
  let matchCount := matchCount + if vgetqLaneU32 combined 3 ≠ 0 then 1 else 0
  return matchCount

/-- Four indices with AVX2. -/
def scanBlockAvx2 (tickers : Vector UInt64 n) (prices : Vector UInt32 n) (targetTicker : UInt64)
    (priceThreshold : UInt32) (i : ℕ) (matchCount : ℕ) : Option ℕ := do
  let targetVec := mm256Set1Epi64x targetTicker
  let threshVec := mmSet1Epi32 priceThreshold
  let tickers ← mm256LoaduSi256 tickers i
  let tcmp := mm256CmpeqEpi64 tickers targetVec
  let tmask := mm256MovemaskPd tcmp
  let prices ← mmLoaduSi128 prices i
  let pcmp := mmCmpgtEpi32 prices threshVec
  let pmask := mmMovemaskPs pcmp
  return matchCount + popcount (tmask &&& pmask)

/-- The number of matches that a build counts. -/
def soaScan (build : SimdBuild) (tickers : Vector UInt64 n) (prices : Vector UInt32 n)
    (targetTicker : UInt64) (priceThreshold : UInt32) : Option ℕ := do
  let (i, matchCount) ← match build with
    | .neon => forBlocks 4 n (scanBlockNeon tickers prices targetTicker priceThreshold) 0 0
    | .avx2 => forBlocks 4 n (scanBlockAvx2 tickers prices targetTicker priceThreshold) 0 0
    | .scalar => some (0, 0)
  let (_, matchCount) ← forBlocks 1 n (scanOne tickers prices targetTicker priceThreshold) i matchCount
  return matchCount

/-- The ticker at an index is the target and its price is above the threshold. -/
def Matches (tickers : Vector UInt64 n) (prices : Vector UInt32 n) (targetTicker : UInt64)
    (priceThreshold : UInt32) (i : ℕ) : Prop :=
  ∃ _ : i < n, tickers[i] = targetTicker ∧ prices[i] > priceThreshold

/-- The same with the price compared as a signed number inside the blocks of four. -/
def MatchesAvx2 (tickers : Vector UInt64 n) (prices : Vector UInt32 n) (targetTicker : UInt64)
    (priceThreshold : UInt32) (i : ℕ) : Prop :=
  ∃ _ : i < n, tickers[i] = targetTicker ∧
    if i < blocksEnd 4 n then prices[i].toInt32 > priceThreshold.toInt32
    else prices[i] > priceThreshold

variable (tickers : Vector UInt64 n) (prices : Vector UInt32 n) (targetTicker : UInt64)
  (priceThreshold : UInt32)

instance : DecidablePred (Matches tickers prices targetTicker priceThreshold) :=
  fun _ => inferInstanceAs (Decidable (∃ _, _))

instance : DecidablePred (MatchesAvx2 tickers prices targetTicker priceThreshold) :=
  fun _ => inferInstanceAs (Decidable (∃ _, _))

variable {tickers prices targetTicker priceThreshold}

theorem matches_iff {i : ℕ} (hi : i < n) :
    Matches tickers prices targetTicker priceThreshold i ↔
      tickers[i] = targetTicker ∧ prices[i] > priceThreshold :=
  ⟨fun ⟨_, h⟩ => h, fun h => ⟨hi, h⟩⟩

theorem matchesAvx2_iff_of_lt {i : ℕ} (hi : i < n) (hblock : i < blocksEnd 4 n) :
    MatchesAvx2 tickers prices targetTicker priceThreshold i ↔
      tickers[i] = targetTicker ∧ prices[i].toInt32 > priceThreshold.toInt32 := by
  refine ⟨fun ⟨_, h⟩ => ?_, fun h => ⟨hi, ?_⟩⟩
  · rwa [if_pos hblock] at h
  · rwa [if_pos hblock]

theorem matchesAvx2_iff_of_le {i : ℕ} (hblock : blocksEnd 4 n ≤ i) :
    MatchesAvx2 tickers prices targetTicker priceThreshold i ↔
      Matches tickers prices targetTicker priceThreshold i := by
  rw [MatchesAvx2, Matches]
  simp only [if_neg (Nat.not_lt.mpr hblock)]

/-- A price on the same side of `2^31` as the threshold. -/
def SameHalf (price threshold : UInt32) : Prop := price < 0x80000000 ↔ threshold < 0x80000000

/-- The signed reading of a number of 32 bits. -/
theorem toInt_toInt32 (x : UInt32) :
    x.toInt32.toInt = if x.toNat < 2 ^ 31 then (x.toNat : ℤ) else (x.toNat : ℤ) - 2 ^ 32 := by
  have hcond := BitVec.toInt_eq_toNat_cond x.toBitVec
  rw [UInt32.toNat_toBitVec] at hcond
  refine Eq.trans hcond ?_
  split <;> split <;> omega

theorem lt_half_iff (x : UInt32) : x < 0x80000000 ↔ x.toNat < 2 ^ 31 := UInt32.lt_iff_toNat_lt

/-- The signed and the unsigned comparison agree on one side of `2^31`. -/
theorem toInt32_gt_iff {price threshold : UInt32} (h : SameHalf price threshold) :
    price.toInt32 > threshold.toInt32 ↔ price > threshold := by
  rw [SameHalf, lt_half_iff, lt_half_iff] at h
  rw [gt_iff_lt, gt_iff_lt, Int32.lt_iff_toInt_lt, toInt_toInt32, toInt_toInt32,
    UInt32.lt_iff_toNat_lt]
  split <;> split <;> omega

/-- On different sides of `2^31` they differ. -/
theorem toInt32_gt_iff_not {price threshold : UInt32} (h : ¬ SameHalf price threshold) :
    price.toInt32 > threshold.toInt32 ↔ ¬ price > threshold := by
  have hprice := price.toNat_lt
  have hthreshold := threshold.toNat_lt
  rw [SameHalf, lt_half_iff, lt_half_iff] at h
  rw [gt_iff_lt, gt_iff_lt, Int32.lt_iff_toInt_lt, toInt_toInt32, toInt_toInt32,
    UInt32.lt_iff_toNat_lt]
  split <;> split <;> omega

/-! ## Steps of the loops -/

theorem scanOne_spec {p : ℕ → Prop} [DecidablePred p] {i : ℕ} (hi : i < n)
    (hp : p i ↔ Matches tickers prices targetTicker priceThreshold i) :
    scanOne tickers prices targetTicker priceThreshold i (Nat.count p i) =
      some (Nat.count p (i + 1)) := by
  rw [scanOne, Vector.getElem?_eq_getElem hi, Vector.getElem?_eq_getElem hi, Nat.count_succ]
  simp only [Option.bind_eq_bind, Option.bind_some, hp, matches_iff hi]
  split <;> rfl

/-- Four elements of an array. -/
theorem loadLanes_of_le {α : Type} (a : Vector α n) {i m : ℕ} (h : i + m ≤ n) :
    loadLanes a m i = some (Vector.ofFn fun k => a[i + k.val]) := dif_pos h

theorem count_add_four (p : ℕ → Prop) [DecidablePred p] (i : ℕ) :
    Nat.count p (i + 4) = Nat.count p i + (if p i then 1 else 0) + (if p (i + 1) then 1 else 0) +
      (if p (i + 2) then 1 else 0) + (if p (i + 3) then 1 else 0) := by
  rw [Nat.count_succ, Nat.count_succ, Nat.count_succ, Nat.count_succ]

section Combined

variable (t01 t23 : Vector UInt64 2) (block : Vector UInt32 4) (ticker : UInt64) (threshold : UInt32)
  (lane : Fin 2)

/-- The combined mask of NEON, lane by lane. -/
theorem combined_low :
    vgetqLaneU32 (vandqU32 (vcombineU32 (vmovnU64 (vceqqU64 t01 (vdupqNU64 ticker)))
        (vmovnU64 (vceqqU64 t23 (vdupqNU64 ticker)))) (vcgtqU32 block (vdupqNU32 threshold)))
        (lane.castAdd 2) =
      fill32 (decide (t01.get lane = ticker) && decide (block.get (lane.castAdd 2) > threshold)) := by
  rw [vgetqLaneU32, get_vandqU32, get_vcombineU32_low, get_vmovnU64, get_vceqqU64, get_vcgtqU32,
    toUInt32_fill64, fill32_and]

theorem combined_high :
    vgetqLaneU32 (vandqU32 (vcombineU32 (vmovnU64 (vceqqU64 t01 (vdupqNU64 ticker)))
        (vmovnU64 (vceqqU64 t23 (vdupqNU64 ticker)))) (vcgtqU32 block (vdupqNU32 threshold)))
        (lane.natAdd 2) =
      fill32 (decide (t23.get lane = ticker) && decide (block.get (lane.natAdd 2) > threshold)) := by
  rw [vgetqLaneU32, get_vandqU32, get_vcombineU32_high, get_vmovnU64, get_vceqqU64, get_vcgtqU32,
    toUInt32_fill64, fill32_and]

end Combined

theorem fill32_ne_zero_iff (p q : Prop) [Decidable p] [Decidable q] :
    fill32 (decide p && decide q) ≠ 0 ↔ p ∧ q := by
  rw [Ne.eq_def, fill32_eq_zero_iff, Bool.not_eq_false, Bool.and_eq_true, decide_eq_true_eq,
    decide_eq_true_eq]

theorem scanBlockNeon_spec {i : ℕ} (hi : i + 4 ≤ n) :
    scanBlockNeon tickers prices targetTicker priceThreshold i
        (Nat.count (Matches tickers prices targetTicker priceThreshold) i) =
      some (Nat.count (Matches tickers prices targetTicker priceThreshold) (i + 4)) := by
  rw [scanBlockNeon, vld1qU64, vld1qU64, vld1qU32, loadLanes_of_le _ (by omega),
    loadLanes_of_le _ (by omega), loadLanes_of_le _ (by omega), count_add_four]
  simp only [Option.bind_eq_bind, Option.bind_some]
  have h0 : (0 : Fin 4) = (0 : Fin 2).castAdd 2 := rfl
  have h1 : (1 : Fin 4) = (1 : Fin 2).castAdd 2 := rfl
  have h2 : (2 : Fin 4) = (0 : Fin 2).natAdd 2 := rfl
  have h3 : (3 : Fin 4) = (1 : Fin 2).natAdd 2 := rfl
  rw [h0, h1, h2, h3, combined_low, combined_low, combined_high, combined_high]
  simp only [fill32_ne_zero_iff, matches_iff (show i < n by omega),
    matches_iff (show i + 1 < n by omega), matches_iff (show i + 2 < n by omega),
    matches_iff (show i + 3 < n by omega)]
  rfl

theorem scanBlockAvx2_spec {i : ℕ} (hdvd : 4 ∣ i) (hi : i + 4 ≤ n) :
    scanBlockAvx2 tickers prices targetTicker priceThreshold i
        (Nat.count (MatchesAvx2 tickers prices targetTicker priceThreshold) i) =
      some (Nat.count (MatchesAvx2 tickers prices targetTicker priceThreshold) (i + 4)) := by
  have hend := add_le_blocksEnd (by decide) hdvd hi
  rw [scanBlockAvx2, mm256LoaduSi256, mmLoaduSi128, loadLanes_of_le _ (by omega),
    loadLanes_of_le _ (by omega), count_add_four]
  simp only [Option.bind_eq_bind, Option.bind_some, Option.map_some]
  rw [mm256MovemaskPd_cmpeq, mmMovemaskPs_cmpgt, maskOf_and _ _ (by decide),
    popcount_maskOf _ (by decide), toList_four]
  simp only [Vector.getElem_zipWith, Vector.getElem_map, Vector.getElem_ofFn,
    matchesAvx2_iff_of_lt (show i < n by omega) (by omega),
    matchesAvx2_iff_of_lt (show i + 1 < n by omega) (by omega),
    matchesAvx2_iff_of_lt (show i + 2 < n by omega) (by omega),
    matchesAvx2_iff_of_lt (show i + 3 < n by omega) (by omega), List.count_cons, List.count_nil,
    beq_true, Bool.and_eq_true, decide_eq_true_eq, Nat.add_zero]
  refine congrArg some ?_
  omega

/-! ## Whole scans -/

/-- The single indices from `i` on. -/
theorem forBlocks_scanOne {p : ℕ → Prop} [DecidablePred p] {i : ℕ} (hi : i ≤ n)
    (hp : ∀ k, i ≤ k → (p k ↔ Matches tickers prices targetTicker priceThreshold k)) :
    forBlocks 1 n (scanOne tickers prices targetTicker priceThreshold) i (Nat.count p i) =
      some (n, Nat.count p n) :=
  forBlocks_one_eq (Nat.count p) hi fun k hik hk => scanOne_spec hk (hp k hik)

theorem soaScan_scalar : soaScan .scalar tickers prices targetTicker priceThreshold =
    some (Nat.count (Matches tickers prices targetTicker priceThreshold) n) := by
  have hrest : forBlocks 1 n (scanOne tickers prices targetTicker priceThreshold) 0
      (Nat.count (Matches tickers prices targetTicker priceThreshold) 0) = some (n, _) :=
    forBlocks_scanOne (Nat.zero_le n) fun _ _ => Iff.rfl
  rw [Nat.count_zero] at hrest
  simp only [soaScan, Option.bind_eq_bind, Option.bind_some, hrest]
  rfl

theorem soaScan_neon : soaScan .neon tickers prices targetTicker priceThreshold =
    some (Nat.count (Matches tickers prices targetTicker priceThreshold) n) := by
  have hblocks : forBlocks 4 n (scanBlockNeon tickers prices targetTicker priceThreshold) 0
      (Nat.count (Matches tickers prices targetTicker priceThreshold) 0) = some (blocksEnd 4 n, _) :=
    forBlocks_zero_eq _ (by decide) fun k _ hk => scanBlockNeon_spec hk
  have hrest : forBlocks 1 n (scanOne tickers prices targetTicker priceThreshold) (blocksEnd 4 n)
      (Nat.count (Matches tickers prices targetTicker priceThreshold) (blocksEnd 4 n)) = some (n, _) :=
    forBlocks_scanOne (blocksEnd_le 4 n) fun _ _ => Iff.rfl
  rw [Nat.count_zero] at hblocks
  simp only [soaScan, hblocks, Option.bind_eq_bind, Option.bind_some, hrest]
  rfl

theorem soaScan_avx2 : soaScan .avx2 tickers prices targetTicker priceThreshold =
    some (Nat.count (MatchesAvx2 tickers prices targetTicker priceThreshold) n) := by
  have hblocks : forBlocks 4 n (scanBlockAvx2 tickers prices targetTicker priceThreshold) 0
      (Nat.count (MatchesAvx2 tickers prices targetTicker priceThreshold) 0) =
        some (blocksEnd 4 n, _) :=
    forBlocks_zero_eq _ (by decide) fun k hdvd hk => scanBlockAvx2_spec hdvd hk
  have hrest : forBlocks 1 n (scanOne tickers prices targetTicker priceThreshold) (blocksEnd 4 n)
      (Nat.count (MatchesAvx2 tickers prices targetTicker priceThreshold) (blocksEnd 4 n)) =
        some (n, _) :=
    forBlocks_scanOne (blocksEnd_le 4 n) fun _ hk => matchesAvx2_iff_of_le hk
  rw [Nat.count_zero] at hblocks
  simp only [soaScan, hblocks, Option.bind_eq_bind, Option.bind_some, hrest]
  rfl

/-- The counts of two tests, one of which implies the other, are equal exactly when the
tests are. -/
theorem count_eq_iff_of_imp {p q : ℕ → Prop} [DecidablePred p] [DecidablePred q] {n : ℕ}
    (h : ∀ k < n, p k → q k) : Nat.count p n = Nat.count q n ↔ ∀ k < n, q k → p k := by
  induction n with
  | zero => exact ⟨fun _ k hk => absurd hk (Nat.not_lt_zero k), fun _ => rfl⟩
  | succ n ih =>
    have hbefore : ∀ k < n, p k → q k := fun k hk => h k (Nat.lt_succ_of_lt hk)
    have hle := Nat.count_mono_left hbefore
    have hlast := h n (Nat.lt_succ_self n)
    rw [Nat.forall_lt_succ_right, ← ih hbefore, Nat.count_succ, Nat.count_succ]
    by_cases hp : p n
    · rw [if_pos hp, if_pos (hlast hp)]
      exact ⟨fun heq => ⟨Nat.add_right_cancel heq, fun _ => hp⟩, fun heq => by rw [heq.1]⟩
    · rw [if_neg hp]
      split
      case isTrue hq => exact ⟨fun heq => by omega, fun heq => absurd (heq.2 hq) hp⟩
      case isFalse hq => exact ⟨fun heq => ⟨heq, fun h => absurd h hq⟩, fun heq => heq.1⟩

/-- A price on the other side of `2^31` from a low threshold is above it. -/
theorem gt_of_not_sameHalf {price threshold : UInt32} (h : ¬ SameHalf price threshold)
    (hlow : threshold < 0x80000000) : price > threshold := by
  rw [SameHalf, lt_half_iff, lt_half_iff] at h
  rw [lt_half_iff] at hlow
  rw [gt_iff_lt, UInt32.lt_iff_toNat_lt]
  omega

/-- A price on the other side of `2^31` from a high threshold is below it. -/
theorem not_gt_of_not_sameHalf {price threshold : UInt32} (h : ¬ SameHalf price threshold)
    (hhigh : ¬ threshold < 0x80000000) : ¬ price > threshold := by
  rw [SameHalf, lt_half_iff, lt_half_iff] at h
  rw [lt_half_iff] at hhigh
  rw [gt_iff_lt, UInt32.lt_iff_toNat_lt]
  omega

/-- Every price with the target's ticker inside the blocks of four is on the threshold's side
of `2^31`. -/
def BlocksSameHalf (tickers : Vector UInt64 n) (prices : Vector UInt32 n) (targetTicker : UInt64)
    (priceThreshold : UInt32) : Prop :=
  ∀ i (_ : i < n), i < blocksEnd 4 n → tickers[i] = targetTicker → SameHalf prices[i] priceThreshold

/-- At an index of a block the two comparisons agree exactly on one side of `2^31`. -/
theorem matchesAvx2_iff_matches_iff {i : ℕ} (hi : i < n) (hblock : i < blocksEnd 4 n) :
    (MatchesAvx2 tickers prices targetTicker priceThreshold i ↔
        Matches tickers prices targetTicker priceThreshold i) ↔
      (tickers[i] = targetTicker → SameHalf prices[i] priceThreshold) := by
  rw [matchesAvx2_iff_of_lt hi hblock, matches_iff hi]
  by_cases hsame : SameHalf prices[i] priceThreshold
  · simp only [toInt32_gt_iff hsame, hsame, implies_true]
  · rw [toInt32_gt_iff_not hsame]
    tauto

/-- With a low threshold the signed test misses prices and adds none. -/
theorem matches_of_matchesAvx2 (hlow : priceThreshold < 0x80000000) {i : ℕ} (hi : i < n)
    (h : MatchesAvx2 tickers prices targetTicker priceThreshold i) :
    Matches tickers prices targetTicker priceThreshold i := by
  by_cases hblock : i < blocksEnd 4 n
  · obtain ⟨hticker, hprice⟩ := (matchesAvx2_iff_of_lt hi hblock).mp h
    by_cases hsame : SameHalf prices[i] priceThreshold
    · exact (matches_iff hi).mpr ⟨hticker, (toInt32_gt_iff hsame).mp hprice⟩
    · exact (matches_iff hi).mpr ⟨hticker, gt_of_not_sameHalf hsame hlow⟩
  · exact (matchesAvx2_iff_of_le (Nat.le_of_not_lt hblock)).mp h

/-- With a high threshold the signed test adds prices and misses none. -/
theorem matchesAvx2_of_matches (hhigh : ¬ priceThreshold < 0x80000000) {i : ℕ} (hi : i < n)
    (h : Matches tickers prices targetTicker priceThreshold i) :
    MatchesAvx2 tickers prices targetTicker priceThreshold i := by
  by_cases hblock : i < blocksEnd 4 n
  · obtain ⟨hticker, hprice⟩ := (matches_iff hi).mp h
    by_cases hsame : SameHalf prices[i] priceThreshold
    · exact (matchesAvx2_iff_of_lt hi hblock).mpr ⟨hticker, (toInt32_gt_iff hsame).mpr hprice⟩
    · exact absurd hprice (not_gt_of_not_sameHalf hsame hhigh)
  · exact (matchesAvx2_iff_of_le (Nat.le_of_not_lt hblock)).mpr h

/-- The counts of the two tests agree exactly when the tests agree at every index. -/
theorem count_matchesAvx2_eq_iff :
    Nat.count (MatchesAvx2 tickers prices targetTicker priceThreshold) n =
        Nat.count (Matches tickers prices targetTicker priceThreshold) n ↔
      ∀ i < n, (MatchesAvx2 tickers prices targetTicker priceThreshold i ↔
        Matches tickers prices targetTicker priceThreshold i) := by
  by_cases hlow : priceThreshold < 0x80000000
  · rw [count_eq_iff_of_imp fun i hi => matches_of_matchesAvx2 hlow hi]
    exact forall₂_congr fun i hi => ⟨fun h => ⟨matches_of_matchesAvx2 hlow hi, h⟩, Iff.mpr⟩
  · rw [eq_comm, count_eq_iff_of_imp fun i hi => matchesAvx2_of_matches hlow hi]
    exact forall₂_congr fun i hi => ⟨fun h => ⟨h, matchesAvx2_of_matches hlow hi⟩, Iff.mp⟩

/-- Both vector builds count what the scalar build counts exactly when every price with the
target's ticker inside the blocks of four is on the threshold's side of `2^31`. -/
theorem soaScan_agree_iff (tickers : Vector UInt64 n) (prices : Vector UInt32 n)
    (targetTicker : UInt64) (priceThreshold : UInt32) :
    (∀ build, soaScan build tickers prices targetTicker priceThreshold =
        some (Nat.count (Matches tickers prices targetTicker priceThreshold) n)) ↔
      BlocksSameHalf tickers prices targetTicker priceThreshold := by
  have havx2 : (∀ build, soaScan build tickers prices targetTicker priceThreshold =
        some (Nat.count (Matches tickers prices targetTicker priceThreshold) n)) ↔
      Nat.count (MatchesAvx2 tickers prices targetTicker priceThreshold) n =
        Nat.count (Matches tickers prices targetTicker priceThreshold) n := by
    constructor
    · intro h
      exact Option.some.inj (soaScan_avx2.symm.trans (h .avx2))
    · intro heq build
      cases build with
      | neon => exact soaScan_neon
      | avx2 => rw [soaScan_avx2, heq]
      | scalar => exact soaScan_scalar
  rw [havx2, count_matchesAvx2_eq_iff]
  constructor
  · intro h i hi hblock
    exact (matchesAvx2_iff_matches_iff hi hblock).mp (h i hi)
  · intro h i hi
    by_cases hblock : i < blocksEnd 4 n
    · exact (matchesAvx2_iff_matches_iff hi hblock).mpr (h i hi hblock)
    · exact matchesAvx2_iff_of_le (Nat.le_of_not_lt hblock)

/-- Four prices of `2^31` above a threshold of 300000 are not counted with AVX2. -/
theorem soaScan_avx2_high_prices :
    ¬ ∀ build, soaScan build #v[7, 7, 7, 7] #v[0x80000000, 0x80000000, 0x80000000, 0x80000000] 7
        300000 =
      some (Nat.count (Matches #v[7, 7, 7, 7]
        #v[0x80000000, 0x80000000, 0x80000000, 0x80000000] 7 300000) 4) := by
  intro h
  have hcount := soaScan_avx2.symm.trans (h .avx2)
  exact absurd hcount (by decide)

end Experiments

end NanoRing
