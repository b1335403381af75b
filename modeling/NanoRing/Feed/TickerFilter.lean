import NanoRing.Feed.BatchDecoder

/-!
# The ticker filter

`filterTickersSimd` marks the orders with a given key in a 32-bit mask, the order at index
`i` in bit `i mod 32`. The vector builds stop at the end of the last block of four; only the
scalar build looks at the orders behind it.
-/

namespace NanoRing

namespace SimdDecoder

open BlockLoop VectorLanes VectorIntrinsics

/-- Four orders with NEON. -/
def filterBlockNeon (orders : List DecodedOrder) (targetKey : UInt64) (i : ℕ) (matchMask : UInt32) :
    Option UInt32 := do
  let target := vdupqNU64 targetKey
  let t01 := vcombineU64 (vcreateU64 (← orders[i]?).tickerKey)
    (vcreateU64 (← orders[i + 1]?).tickerKey)
  let t23 := vcombineU64 (vcreateU64 (← orders[i + 2]?).tickerKey)
    (vcreateU64 (← orders[i + 3]?).tickerKey)
  let cmp01 := vceqqU64 t01 target
  let cmp23 := vceqqU64 t23 target
  let matchMask := if vgetqLaneU64 cmp01 0 ≠ 0 then setBit matchMask (i % 32) else matchMask
  let matchMask := if vgetqLaneU64 cmp01 1 ≠ 0 then setBit matchMask ((i + 1) % 32) else matchMask
  let matchMask := if vgetqLaneU64 cmp23 0 ≠ 0 then setBit matchMask ((i + 2) % 32) else matchMask
  let matchMask := if vgetqLaneU64 cmp23 1 ≠ 0 then setBit matchMask ((i + 3) % 32) else matchMask
  return matchMask

/-- Four orders with AVX2. -/
def filterBlockAvx2 (orders : List DecodedOrder) (targetKey : UInt64) (i : ℕ) (matchMask : UInt32) :
    Option UInt32 := do
  let target := mm256Set1Epi64x targetKey
  let incoming := mm256SetEpi64x (← orders[i + 3]?).tickerKey (← orders[i + 2]?).tickerKey
    (← orders[i + 1]?).tickerKey (← orders[i]?).tickerKey
  let cmp := mm256CmpeqEpi64 incoming target
  let mask := mm256MovemaskPd cmp
  return matchMask ||| mask <<< UInt32.ofNat (i % 32)

/-- One order of the scalar build. -/
def filterOne (orders : List DecodedOrder) (targetKey : UInt64) (i : ℕ) (matchMask : UInt32) :
    Option UInt32 := do
  let order ← orders[i]?
  return if order.tickerKey = targetKey then setBit matchMask (i % 32) else matchMask

/-- The mask behind the loop of a build. -/
def filterTickersSimd (build : SimdBuild) (orders : List DecodedOrder) (n : ℕ) (targetKey : UInt64) :
    Option UInt32 := do
  let (_, matchMask) ← match build with
    | .neon => forBlocks 4 n (filterBlockNeon orders targetKey) 0 0
    | .avx2 => forBlocks 4 n (filterBlockAvx2 orders targetKey) 0 0
    | .scalar => forBlocks 1 n (filterOne orders targetKey) 0 0
  return matchMask

end SimdDecoder

namespace Feed

open BlockLoop VectorLanes VectorIntrinsics SimdDecoder

/-- The order at an index has the key. -/
def KeyAt (orders : List DecodedOrder) (targetKey : UInt64) (i : ℕ) : Prop :=
  orders[i]?.map (·.tickerKey) = some targetKey

instance (orders : List DecodedOrder) (targetKey : UInt64) (i : ℕ) :
    Decidable (KeyAt orders targetKey i) := inferInstanceAs (Decidable (_ = _))

/-- A mask has the bits of the orders with the key, and no other ones. -/
def MarksKeys (orders : List DecodedOrder) (targetKey : UInt64) (mask : UInt32) : Prop :=
  ∀ j < 32, bit mask j = true ↔ ∃ i < orders.length, i % 32 = j ∧ KeyAt orders targetKey i

/-- The mask of the first `i` orders. -/
def keyMask (orders : List DecodedOrder) (targetKey : UInt64) : ℕ → UInt32
  | 0 => 0
  | i + 1 => setBitIf (keyMask orders targetKey i) (i % 32) (decide (KeyAt orders targetKey i))

variable {orders : List DecodedOrder} {targetKey : UInt64}

theorem keyAt_iff {i : ℕ} (hi : i < orders.length) :
    KeyAt orders targetKey i ↔ orders[i].tickerKey = targetKey := by
  rw [KeyAt, List.getElem?_eq_getElem hi, Option.map_some, Option.some_inj]

theorem keyMask_succ {i : ℕ} (hi : i < orders.length) :
    keyMask orders targetKey (i + 1) =
      setBitIf (keyMask orders targetKey i) (i % 32) (decide (orders[i].tickerKey = targetKey)) := by
  rw [keyMask, decide_eq_decide.mpr (keyAt_iff hi)]

/-- A bit of the mask stands for the indices that fall on it. -/
theorem bit_keyMask (i j : ℕ) :
    bit (keyMask orders targetKey i) j = true ↔ ∃ k < i, k % 32 = j ∧ KeyAt orders targetKey k := by
  induction i with
  | zero =>
    have hzero : bit (keyMask orders targetKey 0) j = false := BitVec.getLsbD_zero
    rw [hzero]
    exact ⟨fun h => absurd h Bool.false_ne_true, fun ⟨k, hk, _⟩ => absurd hk (Nat.not_lt_zero k)⟩
  | succ i ih =>
    rw [keyMask, bit_setBitIf _ (Nat.mod_lt i (by decide)), Bool.or_eq_true, ih, Bool.and_eq_true,
      decide_eq_true_eq, decide_eq_true_eq]
    constructor
    · rintro (⟨k, hk, hkj, hkey⟩ | ⟨hkey, rfl⟩)
      · exact ⟨k, Nat.lt_succ_of_lt hk, hkj, hkey⟩
      · exact ⟨i, Nat.lt_succ_self i, rfl, hkey⟩
    · rintro ⟨k, hk, rfl, hkey⟩
      rcases Nat.lt_succ_iff_lt_or_eq.mp hk with hlt | rfl
      · exact Or.inl ⟨k, hlt, rfl, hkey⟩
      · exact Or.inr ⟨hkey, rfl⟩

theorem filterOne_spec {i : ℕ} (hi : i < orders.length) :
    filterOne orders targetKey i (keyMask orders targetKey i) =
      some (keyMask orders targetKey (i + 1)) := by
  rw [filterOne, List.getElem?_eq_getElem hi, keyMask_succ hi]
  simp only [Option.bind_eq_bind, Option.bind_some, setBitIf, decide_eq_true_eq]
  rfl

theorem filterBlockNeon_spec {i : ℕ} (hi : i + 4 ≤ orders.length) :
    filterBlockNeon orders targetKey i (keyMask orders targetKey i) =
      some (keyMask orders targetKey (i + 4)) := by
  rw [filterBlockNeon, List.getElem?_eq_getElem (by omega), List.getElem?_eq_getElem (by omega),
    List.getElem?_eq_getElem (by omega), List.getElem?_eq_getElem (by omega), keyMask_succ (by omega),
    keyMask_succ (by omega), keyMask_succ (by omega), keyMask_succ (by omega)]
  simp only [Option.bind_eq_bind, Option.bind_some, vgetqLaneU64, get_vceqqU64]
  rw [← ite_fill64, ← ite_fill64, ← ite_fill64, ← ite_fill64]
  rfl

theorem filterBlockAvx2_spec {i : ℕ} (hdvd : 4 ∣ i) (hi : i + 4 ≤ orders.length) :
    filterBlockAvx2 orders targetKey i (keyMask orders targetKey i) =
      some (keyMask orders targetKey (i + 4)) := by
  -- blocks start at multiples of four, so the bits of a block do not wrap
  have h1 : (i + 1) % 32 = i % 32 + 1 := by omega
  have h2 : (i + 2) % 32 = i % 32 + 2 := by omega
  have h3 : (i + 3) % 32 = i % 32 + 3 := by omega
  rw [filterBlockAvx2, List.getElem?_eq_getElem (by omega), List.getElem?_eq_getElem (by omega),
    List.getElem?_eq_getElem (by omega), List.getElem?_eq_getElem (by omega), keyMask_succ (by omega),
    keyMask_succ (by omega), keyMask_succ (by omega), keyMask_succ (by omega), h1, h2, h3]
  simp only [Option.bind_eq_bind, Option.bind_some, mm256SetEpi64x, mm256MovemaskPd_cmpeq]
  rw [or_shiftLeft_maskOf _ _ (by omega)]
  simp only [Vector.getElem_map]
  rfl

/-! ## Whole arrays -/

theorem filterTickersSimd_scalar :
    filterTickersSimd .scalar orders orders.length targetKey =
      some (keyMask orders targetKey orders.length) := by
  have hloop : forBlocks 1 orders.length (filterOne orders targetKey) 0 (keyMask orders targetKey 0) =
      some (orders.length, keyMask orders targetKey orders.length) :=
    forBlocks_one_eq (keyMask orders targetKey) (Nat.zero_le _) fun i _ hi => filterOne_spec hi
  rw [keyMask] at hloop
  simp only [filterTickersSimd, hloop, Option.bind_eq_bind, Option.bind_some]
  rfl

theorem filterTickersSimd_neon :
    filterTickersSimd .neon orders orders.length targetKey =
      some (keyMask orders targetKey (blocksEnd 4 orders.length)) := by
  have hloop : forBlocks 4 orders.length (filterBlockNeon orders targetKey) 0
      (keyMask orders targetKey 0) =
      some (blocksEnd 4 orders.length, keyMask orders targetKey (blocksEnd 4 orders.length)) :=
    forBlocks_zero_eq (keyMask orders targetKey) (by decide) fun i _ hi => filterBlockNeon_spec hi
  rw [keyMask] at hloop
  simp only [filterTickersSimd, hloop, Option.bind_eq_bind, Option.bind_some]
  rfl

theorem filterTickersSimd_avx2 :
    filterTickersSimd .avx2 orders orders.length targetKey =
      some (keyMask orders targetKey (blocksEnd 4 orders.length)) := by
  have hloop : forBlocks 4 orders.length (filterBlockAvx2 orders targetKey) 0
      (keyMask orders targetKey 0) =
      some (blocksEnd 4 orders.length, keyMask orders targetKey (blocksEnd 4 orders.length)) :=
    forBlocks_zero_eq (keyMask orders targetKey) (by decide) fun i hdvd hi => filterBlockAvx2_spec hdvd hi
  rw [keyMask] at hloop
  simp only [filterTickersSimd, hloop, Option.bind_eq_bind, Option.bind_some]
  rfl

/-- Every order with the key behind the last block of four shares its bit with one in front of it. -/
def TailCovered (orders : List DecodedOrder) (targetKey : UInt64) : Prop :=
  ∀ i < orders.length, blocksEnd 4 orders.length ≤ i → KeyAt orders targetKey i →
    ∃ k < blocksEnd 4 orders.length, k % 32 = i % 32 ∧ KeyAt orders targetKey k

/-- The mask of all orders marks the key. -/
theorem marksKeys_keyMask : MarksKeys orders targetKey (keyMask orders targetKey orders.length) :=
  fun j _ => bit_keyMask orders.length j

/-- The blocks of four give the whole mask exactly when the rest adds no bit. -/
theorem keyMask_blocksEnd_eq_iff :
    keyMask orders targetKey (blocksEnd 4 orders.length) = keyMask orders targetKey orders.length ↔
      TailCovered orders targetKey := by
  constructor
  · intro heq i hi _ hkey
    have hbit := (bit_keyMask orders.length (i % 32)).mpr ⟨i, hi, rfl, hkey⟩
    rw [← heq] at hbit
    exact (bit_keyMask _ _).mp hbit
  · intro hcovered
    apply eq_of_bit
    intro j _
    rw [Bool.eq_iff_iff, bit_keyMask, bit_keyMask]
    constructor
    · rintro ⟨k, hk, hkj, hkey⟩
      exact ⟨k, Nat.lt_of_lt_of_le hk (blocksEnd_le 4 _), hkj, hkey⟩
    · rintro ⟨i, hi, rfl, hkey⟩
      by_cases hblock : i < blocksEnd 4 orders.length
      · exact ⟨i, hblock, rfl, hkey⟩
      · exact hcovered i hi (Nat.le_of_not_lt hblock) hkey

/-- The three builds return the mask of the key exactly when the orders that the vector
builds do not look at add no bit to it. -/
theorem filterTickersSimd_agree_iff (orders : List DecodedOrder) (targetKey : UInt64) :
    (∃ mask, (∀ build, filterTickersSimd build orders orders.length targetKey = some mask) ∧
        MarksKeys orders targetKey mask) ↔ TailCovered orders targetKey := by
  rw [← keyMask_blocksEnd_eq_iff]
  constructor
  · rintro ⟨mask, hbuild, -⟩
    have hneon := (hbuild .neon).symm.trans filterTickersSimd_neon
    have hscalar := (hbuild .scalar).symm.trans filterTickersSimd_scalar
    exact Option.some.inj (hneon.symm.trans hscalar)
  · intro heq
    refine ⟨keyMask orders targetKey orders.length, fun build => ?_, marksKeys_keyMask⟩
    cases build with
    | neon => rw [filterTickersSimd_neon, heq]
    | avx2 => rw [filterTickersSimd_avx2, heq]
    | scalar => exact filterTickersSimd_scalar

/-- A single order with the key is marked by the scalar build and missed by the vector builds. -/
theorem filterTickersSimd_single :
    ¬ ∃ mask, (∀ build, filterTickersSimd build [⟨.add, 1, 7, 100, 10, sideBuy, 0⟩] 1 7 = some mask) ∧
      MarksKeys [⟨.add, 1, 7, 100, 10, sideBuy, 0⟩] 7 mask := by
  rintro ⟨mask, hbuild, -⟩
  have hneon := hbuild .neon
  have hscalar := hbuild .scalar
  have hdiffer : filterTickersSimd .neon [⟨.add, 1, 7, 100, 10, sideBuy, 0⟩] 1 7 ≠
      filterTickersSimd .scalar [⟨.add, 1, 7, 100, 10, sideBuy, 0⟩] 1 7 := by decide
  exact hdiffer (hneon.trans hscalar.symm)

end Feed

end NanoRing
