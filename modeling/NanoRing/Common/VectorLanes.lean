import Mathlib.Logic.Equiv.Fin.Basic
import NanoRing.Common.ByteOrder

/-!
# Vector registers

A register is a vector of lanes, or the vector of its bytes, lane after lane with the least
significant byte of a lane first. The two readings of a register are related by the bytes of
a single lane, and an operation on bytes that stays inside the lanes is an operation on
lanes. The mask of a register has a bit for each lane.
-/

namespace VectorLanes

/-- An element type that is stored in `size` bytes. -/
class Lane (α : Type) (size : outParam ℕ) where
  toBytes : α → Vector UInt8 size
  ofBytes : Vector UInt8 size → α
  ofBytes_toBytes (x : α) : ofBytes (toBytes x) = x

/-- The bytes of a number, least significant byte first. -/
def numberBytes (size v : ℕ) : Vector UInt8 size :=
  ⟨(ByteOrder.littleBytes size v).toArray, by
    rw [List.size_toArray, ByteOrder.length_littleBytes]⟩

@[simp] theorem toList_numberBytes (size v : ℕ) :
    (numberBytes size v).toList = ByteOrder.littleBytes size v := rfl

instance : Lane UInt32 4 where
  toBytes x := numberBytes 4 x.toNat
  ofBytes bytes := .ofNat (ByteOrder.little bytes.toList)
  ofBytes_toBytes x := by
    have hlt : x.toNat < 256 ^ 4 := x.toNat_lt
    rw [toList_numberBytes, ByteOrder.little_littleBytes hlt, UInt32.ofNat_toNat]

instance : Lane UInt64 8 where
  toBytes x := numberBytes 8 x.toNat
  ofBytes bytes := .ofNat (ByteOrder.little bytes.toList)
  ofBytes_toBytes x := by
    have hlt : x.toNat < 256 ^ 8 := x.toNat_lt
    rw [toList_numberBytes, ByteOrder.little_littleBytes hlt, UInt64.ofNat_toNat]

variable {α : Type} {n size : ℕ}

/-! ## Lanes and bytes -/

/-- The bytes of a register. -/
def bytes [Lane α size] (r : Vector α n) : Vector UInt8 (n * size) :=
  Vector.ofFn fun i => (Lane.toBytes r[i.divNat])[i.modNat]

/-- The bytes of one lane. -/
def laneBytes (n size : ℕ) (b : Vector UInt8 (n * size)) (k : Fin n) : Vector UInt8 size :=
  Vector.ofFn fun j => b[finProdFinEquiv (k, j)]

/-- The lanes that the bytes of a register spell. -/
def lanes (α : Type) (n : ℕ) {size : ℕ} [Lane α size] (b : Vector UInt8 (n * size)) : Vector α n :=
  Vector.ofFn fun k => Lane.ofBytes (laneBytes n size b k)

/-- The bytes of every lane in the opposite order. -/
def reverseLanes (n size : ℕ) (b : Vector UInt8 (n * size)) : Vector UInt8 (n * size) :=
  Vector.ofFn fun i => (laneBytes n size b i.divNat).reverse[i.modNat]

/-- A lane with its bytes in the opposite order. -/
def swapBytes [Lane α size] (x : α) : α := Lane.ofBytes (Lane.toBytes x).reverse

/-- The elements of an array from index `i` on, as the lanes of a register. -/
def loadLanes {m : ℕ} (a : Vector α m) (n i : ℕ) : Option (Vector α n) :=
  if h : i + n ≤ m then some (Vector.ofFn fun k => a[i + k.val]) else none

theorem divNat_finProdFinEquiv (k : Fin n) (j : Fin size) :
    (finProdFinEquiv (k, j)).divNat = k :=
  congrArg Prod.fst (finProdFinEquiv.symm_apply_apply (k, j))

theorem modNat_finProdFinEquiv (k : Fin n) (j : Fin size) :
    (finProdFinEquiv (k, j)).modNat = j :=
  congrArg Prod.snd (finProdFinEquiv.symm_apply_apply (k, j))

/-- A register built from bytes for each lane has these bytes. -/
theorem laneBytes_ofFn (f : Fin n → Vector UInt8 size) (k : Fin n) :
    laneBytes n size (Vector.ofFn fun i => (f i.divNat)[i.modNat]) k = f k := by
  apply Vector.ext
  intro j hj
  simp only [laneBytes, Vector.getElem_ofFn, Fin.getElem_fin, Fin.eta, divNat_finProdFinEquiv,
    modNat_finProdFinEquiv]

theorem laneBytes_bytes [Lane α size] (r : Vector α n) (k : Fin n) :
    laneBytes n size (bytes r) k = Lane.toBytes r[k] :=
  laneBytes_ofFn (fun k => Lane.toBytes r[k]) k

theorem laneBytes_reverseLanes (b : Vector UInt8 (n * size)) (k : Fin n) :
    laneBytes n size (reverseLanes n size b) k = (laneBytes n size b k).reverse :=
  laneBytes_ofFn (fun k => (laneBytes n size b k).reverse) k

/-- Lanes are read back from their bytes. -/
@[simp] theorem lanes_bytes [Lane α size] (r : Vector α n) : lanes α n (bytes r) = r := by
  apply Vector.ext
  intro k hk
  rw [lanes, Vector.getElem_ofFn, laneBytes_bytes, Lane.ofBytes_toBytes, Fin.getElem_fin]

/-- Reversing the bytes of every lane swaps the lanes. -/
@[simp] theorem lanes_reverseLanes_bytes [Lane α size] (r : Vector α n) :
    lanes α n (reverseLanes n size (bytes r)) = r.map swapBytes := by
  apply Vector.ext
  intro k hk
  rw [lanes, Vector.getElem_ofFn, laneBytes_reverseLanes, laneBytes_bytes, Vector.getElem_map,
    Fin.getElem_fin, swapBytes]

/-- The swap of a word reverses its bytes as a number. -/
theorem swapBytes_uint32 (x : UInt32) : swapBytes x = .ofNat (ByteOrder.swap 4 x.toNat) := by
  have hbytes : (numberBytes 4 x.toNat).reverse.toList = ByteOrder.bigBytes 4 x.toNat := by
    rw [Vector.toList_reverse, toList_numberBytes, ByteOrder.bigBytes]
  exact congrArg (fun l => UInt32.ofNat (ByteOrder.little l)) hbytes

/-- A reversed lane takes each byte from the mirrored place of the same lane. -/
theorem getElem_reverseLanes (b : Vector UInt8 (n * size)) (i : Fin (n * size)) :
    (reverseLanes n size b)[i] = b[finProdFinEquiv (i.divNat, i.modNat.rev)] := by
  have hrev : size - 1 - i.modNat.val = i.modNat.rev.val := by
    rw [Fin.val_rev]
    omega
  simp only [reverseLanes, laneBytes, Fin.getElem_fin, Vector.getElem_ofFn, Vector.getElem_reverse,
    hrev, Fin.eta]

/-! ## Masks -/

/-- Bit `k` of a word. -/
def bit (mask : UInt32) (k : ℕ) : Bool := mask.toBitVec.getLsbD k

/-- Set a bit of a word. -/
def setBit (mask : UInt32) (k : ℕ) : UInt32 := mask ||| 1 <<< UInt32.ofNat k

/-- Set a bit of a word if a test holds. -/
def setBitIf (mask : UInt32) (k : ℕ) (p : Bool) : UInt32 := if p then setBit mask k else mask

/-- The word whose low bits are the given ones. -/
def maskOf (bits : Vector Bool n) : UInt32 :=
  .ofBitVec ((BitVec.ofBoolListLE bits.toList).setWidth 32)

/-- The number of set bits of a word. -/
def popcount (mask : UInt32) : ℕ := (List.range 32).countP (bit mask)

theorem bit_and (mask mask' : UInt32) (j : ℕ) :
    bit (mask &&& mask') j = (bit mask j && bit mask' j) := by
  rw [bit, UInt32.toBitVec_and, BitVec.getLsbD_and]
  rfl

theorem bit_or (mask mask' : UInt32) (j : ℕ) :
    bit (mask ||| mask') j = (bit mask j || bit mask' j) := by
  rw [bit, UInt32.toBitVec_or, BitVec.getLsbD_or]
  rfl

/-- A word shifted by `s` has its bits `s` places higher. -/
theorem bit_shiftLeft (mask : UInt32) {s : ℕ} (hs : s < 32) (j : ℕ) :
    bit (mask <<< UInt32.ofNat s) j = (decide (s ≤ j ∧ j < 32) && bit mask (j - s)) := by
  have hshift : ((UInt32.ofNat s).toBitVec % 32).toNat = s := by
    rw [BitVec.toNat_umod, UInt32.toNat_toBitVec, UInt32.toNat_ofNat']
    exact (congrArg (· % 32) (Nat.mod_eq_of_lt (by omega))).trans (Nat.mod_eq_of_lt hs)
  unfold bit
  rw [UInt32.toBitVec_shiftLeft, BitVec.shiftLeft_eq', hshift, BitVec.getLsbD_shiftLeft]
  congr 1
  rw [Bool.eq_iff_iff]
  simp only [Bool.and_eq_true, Bool.not_eq_true', decide_eq_true_eq, decide_eq_false_iff_not]
  omega

theorem bit_one (j : ℕ) : bit 1 j = decide (j = 0) := by
  have hone : (1 : UInt32).toBitVec = 1#32 := rfl
  rw [bit, hone, BitVec.getLsbD_one]
  simp

/-- Setting a bit sets that bit only. -/
theorem bit_setBit (mask : UInt32) {k : ℕ} (hk : k < 32) (j : ℕ) :
    bit (setBit mask k) j = (bit mask j || decide (j = k)) := by
  rw [setBit, bit_or, bit_shiftLeft 1 hk, bit_one]
  congr 1
  rw [← Bool.decide_and, decide_eq_decide]
  omega

theorem bit_setBitIf (mask : UInt32) {k : ℕ} (hk : k < 32) (p : Bool) (j : ℕ) :
    bit (setBitIf mask k p) j = (bit mask j || (p && decide (j = k))) := by
  cases p with
  | false => rw [setBitIf, Bool.false_and, Bool.or_false, if_neg Bool.false_ne_true]
  | true => rw [setBitIf, Bool.true_and, if_pos rfl, bit_setBit mask hk]

/-- Words with the same bits are equal. -/
theorem eq_of_bit {mask mask' : UInt32} (h : ∀ j < 32, bit mask j = bit mask' j) : mask = mask' :=
  UInt32.toBitVec_inj.mp (BitVec.eq_of_getLsbD_eq h)

/-- A mask has the given bits, and none behind them. -/
theorem bit_maskOf (bits : Vector Bool n) (hn : n ≤ 32) (j : ℕ) :
    bit (maskOf bits) j = bits.toList.getD j false := by
  rw [bit, maskOf, BitVec.getLsbD_setWidth, BitVec.getLsbD_ofBoolListLE]
  by_cases hj : j < 32
  · rw [decide_eq_true hj, Bool.true_and]
  · have hend : bits.toList.length ≤ j := by
      rw [Vector.length_toList]
      omega
    rw [decide_eq_false hj, Bool.false_and, List.getD_eq_getElem?_getD, List.getElem?_eq_none hend,
      Option.getD_none]

theorem toList_four {β : Type} (v : Vector β 4) : v.toList = [v[0], v[1], v[2], v[3]] := by
  apply List.ext_getElem
  · rw [Vector.length_toList]
    rfl
  · intro k hk _
    rw [Vector.length_toList] at hk
    rw [Vector.getElem_toList]
    match k with
    | 0 => rfl
    | 1 => rfl
    | 2 => rfl
    | 3 => rfl

/-- A mask of four bits, moved into place, sets them one by one. -/
theorem or_shiftLeft_maskOf (mask : UInt32) (bits : Vector Bool 4) {s : ℕ} (hs : s + 4 ≤ 32) :
    mask ||| maskOf bits <<< UInt32.ofNat s =
      setBitIf (setBitIf (setBitIf (setBitIf mask s bits[0]) (s + 1) bits[1]) (s + 2) bits[2])
        (s + 3) bits[3] := by
  apply eq_of_bit
  intro j hj
  rw [bit_or, bit_shiftLeft _ (by omega), bit_maskOf _ (by decide), toList_four,
    bit_setBitIf _ (by omega), bit_setBitIf _ (by omega), bit_setBitIf _ (by omega),
    bit_setBitIf _ (by omega), Bool.or_assoc, Bool.or_assoc, Bool.or_assoc]
  congr 1
  by_cases hbelow : j < s
  · simp [Nat.not_le.mpr hbelow, show j ≠ s by omega, show j ≠ s + 1 by omega,
      show j ≠ s + 2 by omega, show j ≠ s + 3 by omega]
  · rw [Nat.not_lt] at hbelow
    obtain ⟨k, rfl⟩ := Nat.exists_eq_add_of_le hbelow
    rw [decide_eq_true ⟨hbelow, hj⟩, Bool.true_and, Nat.add_sub_cancel_left]
    match k with
    | 0 => simp
    | 1 => simp
    | 2 => simp
    | 3 => simp
    | k + 4 => simp

/-- Counting the positions of a list that hold `true` counts its `true` elements. -/
theorem countP_getD (l : List Bool) {m : ℕ} (hm : l.length ≤ m) :
    (List.range m).countP (fun j => l.getD j false) = l.count true := by
  induction l generalizing m with
  | nil => exact List.countP_eq_zero.mpr fun j _ => by simp
  | cons b l ih =>
    obtain ⟨m, rfl⟩ : ∃ m', m = m' + 1 := ⟨m - 1, by rw [List.length_cons] at hm; omega⟩
    have hrest := ih (Nat.le_of_succ_le_succ hm)
    rw [List.range_succ_eq_map, List.countP_cons, List.countP_map]
    simp only [Function.comp_def, List.getD_cons_succ, List.getD_cons_zero, hrest]
    cases b <;> simp

/-- The bits that two masks share. -/
theorem maskOf_and (bits bits' : Vector Bool n) (hn : n ≤ 32) :
    maskOf bits &&& maskOf bits' = maskOf (.zipWith (· && ·) bits bits') := by
  apply eq_of_bit
  intro j _
  rw [bit_and, bit_maskOf bits hn, bit_maskOf bits' hn, bit_maskOf _ hn]
  simp only [List.getD_eq_getElem?_getD, Vector.getElem?_toList, Vector.getElem?_zipWith]
  by_cases hj : j < n
  · simp [hj]
  · simp [hj]

/-- The number of set bits of a mask. -/
theorem popcount_maskOf (bits : Vector Bool n) (hn : n ≤ 32) :
    popcount (maskOf bits) = bits.toList.count true := by
  have hlength : bits.toList.length ≤ 32 := by rwa [Vector.length_toList]
  rw [popcount, ← countP_getD bits.toList hlength, funext (bit_maskOf bits hn)]

end VectorLanes
