import Mathlib.Data.Nat.Digits.Lemmas

/-!
# Byte order of fixed-width numbers

The number that a string of bytes spells, least significant byte first or last, the bytes
of a number at a given width, and the byte swap that exchanges the two orders.
-/

namespace ByteOrder

/-- The number that bytes spell, least significant byte first. -/
def little (bytes : List UInt8) : ℕ := Nat.ofDigits 256 (bytes.map UInt8.toNat)

/-- The number that bytes spell, most significant byte first. -/
def big (bytes : List UInt8) : ℕ := little bytes.reverse

/-- The lowest `width` bytes of a number, least significant byte first. -/
def littleBytes : ℕ → ℕ → List UInt8
  | 0, _ => []
  | width + 1, v => UInt8.ofNat v :: littleBytes width (v / 256)

/-- The lowest `width` bytes of a number, most significant byte first. -/
def bigBytes (width v : ℕ) : List UInt8 := (littleBytes width v).reverse

/-- Reverse the lowest `width` bytes of a number. -/
def swap (width v : ℕ) : ℕ := big (littleBytes width v)

theorem little_cons (b : UInt8) (bytes : List UInt8) :
    little (b :: bytes) = b.toNat + 256 * little bytes := by
  rw [little, List.map_cons, Nat.ofDigits_cons]
  rfl

/-- Bytes spell a number that fits in their width. -/
theorem little_lt (bytes : List UInt8) : little bytes < 256 ^ bytes.length := by
  have hlt := Nat.ofDigits_lt_base_pow_length (b := 256) (l := bytes.map UInt8.toNat) (by decide) ?_
  · rwa [List.length_map] at hlt
  · intro digit hdigit
    obtain ⟨b, -, rfl⟩ := List.mem_map.mp hdigit
    exact b.toNat_lt

@[simp] theorem length_littleBytes (width v : ℕ) : (littleBytes width v).length = width := by
  induction width generalizing v with
  | zero => rfl
  | succ width ih => rw [littleBytes, List.length_cons, ih]

@[simp] theorem length_bigBytes (width v : ℕ) : (bigBytes width v).length = width := by
  rw [bigBytes, List.length_reverse, length_littleBytes]

/-- A number is read back from its bytes when it fits in them. -/
theorem little_littleBytes {width v : ℕ} (h : v < 256 ^ width) : little (littleBytes width v) = v := by
  induction width generalizing v with
  | zero =>
    rw [pow_zero, Nat.lt_one_iff] at h
    rw [h]
    rfl
  | succ width ih =>
    have hrest : v / 256 < 256 ^ width := Nat.div_lt_of_lt_mul (by rwa [pow_succ'] at h)
    rw [littleBytes, little_cons, ih hrest, UInt8.toNat_ofNat']
    exact Nat.mod_add_div v 256

/-- Bytes are read back from the number that they spell. -/
theorem littleBytes_little (bytes : List UInt8) : littleBytes bytes.length (little bytes) = bytes := by
  induction bytes with
  | nil => rfl
  | cons b bytes ih =>
    have hb : b.toNat < 256 := b.toNat_lt
    have hdiv : (b.toNat + 256 * little bytes) / 256 = little bytes := by omega
    have hfirst : UInt8.ofNat (b.toNat + 256 * little bytes) = b := by
      apply UInt8.toNat_inj.mp
      rw [UInt8.toNat_ofNat']
      omega
    rw [List.length_cons, little_cons, littleBytes, hdiv, ih, hfirst]

/-- A number is read back from its bytes in network order when it fits in them. -/
theorem big_bigBytes {width v : ℕ} (h : v < 256 ^ width) : big (bigBytes width v) = v := by
  rw [big, bigBytes, List.reverse_reverse, little_littleBytes h]

/-- Reading bytes in the other order swaps the number that they were made from. -/
theorem little_bigBytes (width v : ℕ) : little (bigBytes width v) = swap width v := rfl

/-- Swapping the number that bytes spell reads them in the other order. -/
theorem swap_little (bytes : List UInt8) : swap bytes.length (little bytes) = big bytes := by
  rw [swap, littleBytes_little]

/-- The bytes of a swapped number are those of the number in the other order. -/
theorem littleBytes_swap (width v : ℕ) : littleBytes width (swap width v) = bigBytes width v := by
  have hbytes := littleBytes_little (bigBytes width v)
  rwa [length_bigBytes, little_bigBytes] at hbytes

theorem bigBytes_swap (width v : ℕ) : bigBytes width (swap width v) = littleBytes width v := by
  rw [bigBytes, littleBytes_swap, bigBytes, List.reverse_reverse]

/-- A swapped number fits in its width. -/
theorem swap_lt (width v : ℕ) : swap width v < 256 ^ width := by
  have hlt := little_lt (bigBytes width v)
  rwa [length_bigBytes] at hlt

end ByteOrder
