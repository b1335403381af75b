import NanoRing.Common.VectorLanes

/-!
# NEON and AVX2 intrinsics

The documented meaning of some vector intrinsics on a little-endian host. A NEON register
has a lane type and a cast between lane types reads the same bytes. An AVX2 register has no
lane type, so it is its bytes, and the arguments of the `set` intrinsics stand from the
highest lane down to the lowest. A comparison fills a lane with ones where it holds and with
zeros elsewhere.
-/

namespace VectorIntrinsics

open VectorLanes

/-- All bits of a lane where a comparison holds, none elsewhere. -/
def fill64 (p : Bool) : UInt64 := if p then 0xFFFFFFFFFFFFFFFF else 0

def fill32 (p : Bool) : UInt32 := if p then 0xFFFFFFFF else 0

/-! ## NEON -/

section Neon

def vcreateU64 (x : UInt64) : Vector UInt64 1 := #v[x]

def vcombineU64 (low high : Vector UInt64 1) : Vector UInt64 2 := low ++ high

def vcombineU32 (low high : Vector UInt32 2) : Vector UInt32 4 := low ++ high

def vdupqNU64 (x : UInt64) : Vector UInt64 2 := .replicate 2 x

def vdupqNU32 (x : UInt32) : Vector UInt32 4 := .replicate 4 x

def vceqqU64 (a b : Vector UInt64 2) : Vector UInt64 2 := .zipWith (fun x y => fill64 (x = y)) a b

/-- The comparison of unsigned lanes. -/
def vcgtqU32 (a b : Vector UInt32 4) : Vector UInt32 4 := .zipWith (fun x y => fill32 (x > y)) a b

def vandqU32 (a b : Vector UInt32 4) : Vector UInt32 4 := .zipWith (· &&& ·) a b

/-- The low half of every lane. -/
def vmovnU64 (a : Vector UInt64 2) : Vector UInt32 2 := a.map UInt64.toUInt32

def vreinterpretqU8U32 (a : Vector UInt32 4) : Vector UInt8 16 := bytes a

def vreinterpretqU32U8 (a : Vector UInt8 16) : Vector UInt32 4 := lanes UInt32 4 a

/-- The bytes of every 32-bit word in the opposite order. -/
def vrev32qU8 (a : Vector UInt8 16) : Vector UInt8 16 := reverseLanes 4 4 a

def vgetqLaneU64 (a : Vector UInt64 2) (lane : Fin 2) : UInt64 := a.get lane

def vgetqLaneU32 (a : Vector UInt32 4) (lane : Fin 4) : UInt32 := a.get lane

def vld1qU64 {m : ℕ} (a : Vector UInt64 m) (i : ℕ) : Option (Vector UInt64 2) := loadLanes a 2 i

def vld1qU32 {m : ℕ} (a : Vector UInt32 m) (i : ℕ) : Option (Vector UInt32 4) := loadLanes a 4 i

end Neon

/-! ## AVX2 -/

section Avx2

abbrev M128i := Vector UInt8 16

abbrev M256i := Vector UInt8 32

def mm256SetEpi64x (e3 e2 e1 e0 : UInt64) : M256i := bytes #v[e0, e1, e2, e3]

def mm256Set1Epi64x (e : UInt64) : M256i := bytes (.replicate 4 e)

def mmSetEpi32 (e3 e2 e1 e0 : UInt32) : M128i := bytes #v[e0, e1, e2, e3]

def mmSet1Epi32 (e : UInt32) : M128i := bytes (.replicate 4 e)

def mmSetEpi8 (e15 e14 e13 e12 e11 e10 e9 e8 e7 e6 e5 e4 e3 e2 e1 e0 : UInt8) : M128i :=
  #v[e0, e1, e2, e3, e4, e5, e6, e7, e8, e9, e10, e11, e12, e13, e14, e15]

/-- Every byte of the result is zero when the top bit of its mask byte is set, and else the
byte of `a` at the low four bits of its mask byte. -/
def mmShuffleEpi8 (a mask : M128i) : M128i :=
  mask.map fun (m : UInt8) => if 128 ≤ m then 0 else a[m.toNat % 16]

/-- The comparison of 64-bit lanes. -/
def mm256CmpeqEpi64 (a b : M256i) : M256i :=
  bytes (.zipWith (fun x y => fill64 (x = y)) (lanes UInt64 4 a) (lanes UInt64 4 b))

/-- The comparison of 32-bit lanes as signed numbers. -/
def mmCmpgtEpi32 (a b : M128i) : M128i :=
  bytes (.zipWith (fun x y => fill32 (x.toInt32 > y.toInt32)) (lanes UInt32 4 a) (lanes UInt32 4 b))

/-- The top bits of the 64-bit lanes. -/
def mm256MovemaskPd (a : M256i) : UInt32 :=
  maskOf ((lanes UInt64 4 a).map fun x => x.toBitVec.msb)

/-- The top bits of the 32-bit lanes. -/
def mmMovemaskPs (a : M128i) : UInt32 :=
  maskOf ((lanes UInt32 4 a).map fun x => x.toBitVec.msb)

/-- A store to an array of 64-bit elements. -/
def mm256StoreSi256 (a : M256i) : Vector UInt64 4 := lanes UInt64 4 a

/-- A store to an array of 32-bit elements. -/
def mmStoreSi128 (a : M128i) : Vector UInt32 4 := lanes UInt32 4 a

/-- A load from an array of 64-bit elements. -/
def mm256LoaduSi256 {m : ℕ} (a : Vector UInt64 m) (i : ℕ) : Option M256i :=
  (loadLanes a 4 i).map fun r => bytes r

/-- A load from an array of 32-bit elements. -/
def mmLoaduSi128 {m : ℕ} (a : Vector UInt32 m) (i : ℕ) : Option M128i :=
  (loadLanes a 4 i).map fun r => bytes r

end Avx2

/-! ## Lane lemmas -/

theorem fill32_eq_zero_iff (p : Bool) : fill32 p = 0 ↔ p = false := by
  cases p <;> decide

theorem msb_fill64 (p : Bool) : (fill64 p).toBitVec.msb = p := by
  cases p <;> decide

theorem msb_fill32 (p : Bool) : (fill32 p).toBitVec.msb = p := by
  cases p <;> decide

theorem toUInt32_fill64 (p : Bool) : (fill64 p).toUInt32 = fill32 p := by
  cases p <;> decide

theorem fill32_and (p q : Bool) : fill32 p &&& fill32 q = fill32 (p && q) := by
  cases p <;> cases q <;> decide

/-- A bit is set when the lane of a comparison is not zero. -/
theorem ite_fill64 (p : Bool) (mask : UInt32) (k : ℕ) :
    (if fill64 p ≠ 0 then setBit mask k else mask) = setBitIf mask k p := by
  cases p <;> rfl

section Lanes

theorem get_vceqqU64 (a : Vector UInt64 2) (x : UInt64) (lane : Fin 2) :
    (vceqqU64 a (vdupqNU64 x)).get lane = fill64 (a.get lane = x) := by
  change (Vector.zipWith _ a (.replicate 2 x))[lane.val] = _
  rw [Vector.getElem_zipWith, Vector.getElem_replicate]
  rfl

theorem get_vcgtqU32 (a : Vector UInt32 4) (x : UInt32) (lane : Fin 4) :
    (vcgtqU32 a (vdupqNU32 x)).get lane = fill32 (a.get lane > x) := by
  change (Vector.zipWith _ a (.replicate 4 x))[lane.val] = _
  rw [Vector.getElem_zipWith, Vector.getElem_replicate]
  rfl

theorem get_vandqU32 (a b : Vector UInt32 4) (lane : Fin 4) :
    (vandqU32 a b).get lane = a.get lane &&& b.get lane := Vector.getElem_zipWith lane.isLt

theorem get_vmovnU64 (a : Vector UInt64 2) (lane : Fin 2) :
    (vmovnU64 a).get lane = (a.get lane).toUInt32 := Vector.getElem_map _ lane.isLt

theorem get_vcombineU32_low (low high : Vector UInt32 2) (lane : Fin 2) :
    (vcombineU32 low high).get (lane.castAdd 2) = low.get lane :=
  Vector.getElem_append_left lane.isLt

theorem get_vcombineU32_high (low high : Vector UInt32 2) (lane : Fin 2) :
    (vcombineU32 low high).get (lane.natAdd 2) = high.get lane := by
  obtain ⟨k, hk⟩ := lane
  refine (Vector.getElem_append_right (by omega) (Nat.le_add_right 2 k)).trans ?_
  simp only [Nat.add_sub_cancel_left]
  rfl

end Lanes

/-- The byte reversal of every word swaps the lanes. -/
theorem vrev32qU8_lanes (a : Vector UInt32 4) :
    vreinterpretqU32U8 (vrev32qU8 (vreinterpretqU8U32 a)) = a.map swapBytes :=
  lanes_reverseLanes_bytes a

/-- A stored register holds the elements that it was set to, lowest first. -/
theorem mm256StoreSi256_set (e3 e2 e1 e0 : UInt64) :
    mm256StoreSi256 (mm256SetEpi64x e3 e2 e1 e0) = #v[e0, e1, e2, e3] :=
  lanes_bytes #v[e0, e1, e2, e3]

/-- The mask of a comparison with the same key in every lane. -/
theorem mm256MovemaskPd_cmpeq (a : Vector UInt64 4) (key : UInt64) :
    mm256MovemaskPd (mm256CmpeqEpi64 (bytes a) (mm256Set1Epi64x key)) =
      maskOf (a.map fun x => decide (x = key)) := by
  have hlanes : lanes UInt64 4 (mm256CmpeqEpi64 (bytes a) (mm256Set1Epi64x key)) =
      .zipWith (fun x y => fill64 (x = y)) a (.replicate 4 key) := by
    rw [mm256CmpeqEpi64, mm256Set1Epi64x, lanes_bytes, lanes_bytes, lanes_bytes]
  rw [mm256MovemaskPd, hlanes]
  congr 1
  apply Vector.ext
  intro k hk
  rw [Vector.getElem_map, Vector.getElem_map, Vector.getElem_zipWith, Vector.getElem_replicate,
    msb_fill64]

/-- The mask of a signed comparison with the same bound in every lane. -/
theorem mmMovemaskPs_cmpgt (a : Vector UInt32 4) (bound : UInt32) :
    mmMovemaskPs (mmCmpgtEpi32 (bytes a) (mmSet1Epi32 bound)) =
      maskOf (a.map fun x => decide (x.toInt32 > bound.toInt32)) := by
  have hlanes : lanes UInt32 4 (mmCmpgtEpi32 (bytes a) (mmSet1Epi32 bound)) =
      .zipWith (fun x y => fill32 (x.toInt32 > y.toInt32)) a (.replicate 4 bound) := by
    rw [mmCmpgtEpi32, mmSet1Epi32, lanes_bytes, lanes_bytes, lanes_bytes]
  rw [mmMovemaskPs, hlanes]
  congr 1
  apply Vector.ext
  intro k hk
  rw [Vector.getElem_map, Vector.getElem_map, Vector.getElem_zipWith, Vector.getElem_replicate,
    msb_fill32]

end VectorIntrinsics
