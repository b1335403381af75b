import NanoRing.Common.SortedPrefix
import Mathlib.Data.Nat.Notation

/-!
# Price levels of one side of the book

A side is the array of its price levels with the number of levels in use: bids by
descending price, asks by ascending price. The source passes the array and the count
together to every helper, so they are one record here.

The later half reads the helpers as operations on the set of levels. It needs only that
the levels in use are sorted, which every helper keeps, so it applies to any history.
-/

namespace NanoRing

/-- An aggregated price level. -/
structure PriceLevel where
  price : UInt32 := 0
  totalShares : UInt32 := 0
  orderCount : UInt32 := 0
deriving DecidableEq, Repr, Inhabited

/-- The size of a level array. -/
def maxLevels : ℕ := 256

/-- One level array with its count; levels from the count on are stale. -/
structure BookSide where
  levels : ℕ → PriceLevel := fun _ => {}
  count : ℕ := 0

namespace BookSide

/-- Index of the level at a price, or its insertion point as negative minus one. -/
def binaryFind (s : BookSide) (price : UInt32) (descending : Bool) : ℤ :=
  SortedPrefix.search (fun mid => (s.levels mid).price == price)
    (fun mid => if descending then (s.levels mid).price > price else (s.levels mid).price < price)
    s.count 0 ((s.count : ℤ) - 1)

def addToLevels (s : BookSide) (price shares : UInt32) (descending : Bool) : BookSide :=
  let idx := s.binaryFind price descending
  if idx ≥ 0 then
    let level := s.levels idx.toNat
    let bumped := { level with
      totalShares := level.totalShares + shares, orderCount := level.orderCount + 1 }
    { s with levels := Function.update s.levels idx.toNat bumped }
  else if s.count ≥ maxLevels then s
  else
    let insertPos := (-(idx + 1)).toNat
    { levels := SortedPrefix.insertAt s.levels s.count insertPos ⟨price, shares, 1⟩
      count := s.count + 1 }

def removeFromLevels (s : BookSide) (price shares : UInt32) (descending : Bool) : BookSide :=
  let idx := s.binaryFind price descending
  if idx < 0 then s
  else
    let i := idx.toNat
    let level := s.levels i
    if shares ≥ level.totalShares then
      { levels := SortedPrefix.shiftLeft s.levels i s.count, count := s.count - 1 }
    else
      let reduced := { level with
        totalShares := level.totalShares - shares, orderCount := level.orderCount - 1 }
      { s with levels := Function.update s.levels i reduced }

/-! ## Sides as sorted sets of levels -/

/-- The order in which a side lists its prices. -/
def Before (descending : Bool) (p q : UInt32) : Prop := if descending then p > q else p < q

instance (descending : Bool) (p q : UInt32) : Decidable (Before descending p q) :=
  inferInstanceAs (Decidable (if descending then p > q else p < q))

/-- Either order of the prices is a strict total order. -/
instance (descending : Bool) : IsStrictTotalOrder UInt32 (Before descending) where
  trichotomous p q := by
    cases descending <;> simp only [Before, UInt32.lt_iff_toNat_lt, gt_iff_lt] <;>
      intro h₁ h₂ <;> apply UInt32.toNat_inj.mp <;> simp at h₁ h₂ <;> omega
  irrefl p := by cases descending <;> simp [Before]
  trans p q r := by
    cases descending <;> simp only [Before, UInt32.lt_iff_toNat_lt, gt_iff_lt] <;> simp <;> omega

/-- The levels in use are listed best price first, each price once. -/
def Sorted (s : BookSide) (descending : Bool) : Prop :=
  SortedPrefix.Sorted (Before descending) PriceLevel.price s.levels s.count

/-- The side has this level in use. -/
def Has (s : BookSide) (level : PriceLevel) : Prop := SortedPrefix.Has s.levels s.count level

/-- The prices of the levels in use, in array order. -/
def prices (s : BookSide) : List UInt32 := (List.range s.count).map fun i => (s.levels i).price

variable {s : BookSide} {descending : Bool} {price shares : UInt32} {level : PriceLevel}

/-- The search of a sorted side finds the level at the price or its insertion point. -/
theorem Sorted.binaryFind_spec (hs : s.Sorted descending) (price : UInt32) :
    (∃ m : ℕ, m < s.count ∧ (s.levels m).price = price ∧ s.binaryFind price descending = m) ∨
      ∃ p : ℕ, p ≤ s.count ∧ s.binaryFind price descending = -((p : ℤ) + 1) ∧
        (∀ i < p, Before descending (s.levels i).price price) ∧
        ∀ i, p ≤ i → i < s.count → Before descending price (s.levels i).price := by
  refine SortedPrefix.search_sorted hs (fun i => by simp) fun i => ?_
  cases descending <;> simp [Before]

/-- A negative answer means that no level has the price. -/
theorem not_has_of_insertion_point {p : ℕ}
    (hbelow : ∀ i < p, Before descending (s.levels i).price price)
    (habove : ∀ i, p ≤ i → i < s.count → Before descending price (s.levels i).price)
    (h : s.Has level) : level.price ≠ price := by
  obtain ⟨i, hi, rfl⟩ := h
  intro heq
  rcases Nat.lt_or_ge i p with hlt | hge
  · exact irrefl_of (Before descending) price (heq ▸ hbelow i hlt)
  · exact irrefl_of (Before descending) price (heq ▸ habove i hge hi)

/-- Levels other than the one at index `m` are the levels at other prices. -/
theorem Sorted.has_ne_iff (hs : s.Sorted descending) {m : ℕ} (hm : m < s.count) :
    (∃ i < s.count, i ≠ m ∧ s.levels i = level) ↔
      s.Has level ∧ level.price ≠ (s.levels m).price := by
  constructor
  · rintro ⟨i, hi, hne, rfl⟩
    exact ⟨⟨i, hi, rfl⟩, fun heq => hne (SortedPrefix.Sorted.index_eq hs hi hm heq)⟩
  · rintro ⟨⟨i, hi, rfl⟩, hne⟩
    exact ⟨i, hi, fun heq => hne (heq ▸ rfl), rfl⟩

/-- Rewriting the level at index `m` rewrites that level only. -/
theorem Sorted.has_update_iff (hs : s.Sorted descending) {m : ℕ} (hm : m < s.count)
    (new : PriceLevel) :
    Has { s with levels := Function.update s.levels m new } level ↔
      level = new ∨ (s.Has level ∧ level.price ≠ (s.levels m).price) := by
  rw [← hs.has_ne_iff hm]
  constructor
  · rintro ⟨i, hi, rfl⟩
    by_cases him : i = m
    · subst him
      exact Or.inl (Function.update_self i new s.levels)
    · exact Or.inr ⟨i, hi, him, (Function.update_of_ne him new s.levels).symm⟩
  · rintro (rfl | ⟨i, hi, him, rfl⟩)
    · exact ⟨m, hm, Function.update_self m level s.levels⟩
    · exact ⟨i, hi, Function.update_of_ne him new s.levels⟩

/-- What adding shares at a price does: a level at the price takes them, otherwise a new
level does, unless the array is full. -/
inductive AddResult (s : BookSide) (descending : Bool) (price shares : UInt32) (s' : BookSide) :
    Prop
  | bumped (old : PriceLevel) (hold : s.Has old) (hprice : old.price = price)
      (hcount : s'.count = s.count)
      (hhas : ∀ level, s'.Has level ↔
        level = ⟨price, old.totalShares + shares, old.orderCount + 1⟩ ∨
          (s.Has level ∧ level.price ≠ price))
  | inserted (habsent : ∀ level, s.Has level → level.price ≠ price) (hroom : s.count < maxLevels)
      (hcount : s'.count = s.count + 1)
      (hhas : ∀ level, s'.Has level ↔ level = ⟨price, shares, 1⟩ ∨ s.Has level)
  | refused (habsent : ∀ level, s.Has level → level.price ≠ price) (hfull : maxLevels ≤ s.count)
      (hsame : s' = s)

/-- Adding shares keeps the side sorted and has one of the three results. -/
theorem Sorted.addToLevels_spec (hs : s.Sorted descending) (price shares : UInt32) :
    (s.addToLevels price shares descending).Sorted descending ∧
      AddResult s descending price shares (s.addToLevels price shares descending) := by
  rcases hs.binaryFind_spec price with ⟨m, hm, hprice, hidx⟩ | ⟨p, hp, hidx, hbelow, habove⟩
  · simp only [addToLevels, hidx, Int.toNat_natCast]
    rw [if_pos (by omega)]
    refine ⟨SortedPrefix.Sorted.update hs rfl,
      .bumped (s.levels m) ⟨m, hm, rfl⟩ hprice rfl fun level => ?_⟩
    rw [hs.has_update_iff hm, hprice]
  · have habsent (level : PriceLevel) (h : s.Has level) : level.price ≠ price :=
      not_has_of_insertion_point hbelow habove h
    have hpos : (-(-((p : ℤ) + 1) + 1)).toNat = p := by omega
    simp only [addToLevels, hidx, hpos]
    rw [if_neg (by omega)]
    split
    · rename_i hfull
      exact ⟨hs, .refused habsent hfull rfl⟩
    · rename_i hroom
      refine ⟨SortedPrefix.Sorted.insertAt hs hp hbelow habove,
        .inserted habsent (by omega) rfl fun level => ?_⟩
      exact SortedPrefix.has_insertAt s.levels hp _ level

/-- What removing shares at a price does: the level is removed when they cover its total and
reduced otherwise; without a level nothing happens. -/
inductive RemoveResult (s : BookSide) (price shares : UInt32) (s' : BookSide) : Prop
  | absent (habsent : ∀ level, s.Has level → level.price ≠ price) (hsame : s' = s)
  | removed (old : PriceLevel) (hold : s.Has old) (hprice : old.price = price)
      (hcover : old.totalShares ≤ shares) (hcount : s'.count + 1 = s.count)
      (hhas : ∀ level, s'.Has level ↔ s.Has level ∧ level.price ≠ price)
  | reduced (old : PriceLevel) (hold : s.Has old) (hprice : old.price = price)
      (hless : shares < old.totalShares) (hcount : s'.count = s.count)
      (hhas : ∀ level, s'.Has level ↔
        level = ⟨price, old.totalShares - shares, old.orderCount - 1⟩ ∨
          (s.Has level ∧ level.price ≠ price))

/-- Removing shares keeps the side sorted and has one of the three results. -/
theorem Sorted.removeFromLevels_spec (hs : s.Sorted descending) (price shares : UInt32) :
    (s.removeFromLevels price shares descending).Sorted descending ∧
      RemoveResult s price shares (s.removeFromLevels price shares descending) := by
  rcases hs.binaryFind_spec price with ⟨m, hm, hprice, hidx⟩ | ⟨p, hp, hidx, hbelow, habove⟩
  · simp only [removeFromLevels, hidx, Int.toNat_natCast]
    rw [if_neg (by omega)]
    split
    · rename_i hcover
      refine ⟨SortedPrefix.Sorted.shiftLeft hs hm, .removed (s.levels m) ⟨m, hm, rfl⟩ hprice hcover
        (Nat.sub_add_cancel (by omega)) fun level => ?_⟩
      rw [← hprice, ← hs.has_ne_iff hm]
      exact SortedPrefix.has_shiftLeft s.levels hm level
    · rename_i hless
      refine ⟨SortedPrefix.Sorted.update hs rfl, .reduced (s.levels m) ⟨m, hm, rfl⟩ hprice
        (UInt32.not_le.mp hless) rfl fun level => ?_⟩
      rw [hs.has_update_iff hm, hprice]
  · simp only [removeFromLevels, hidx]
    rw [if_pos (by omega)]
    exact ⟨hs, .absent (fun level h => not_has_of_insertion_point hbelow habove h) rfl⟩

/-- The empty side is sorted. -/
theorem sorted_empty (descending : Bool) : ({} : BookSide).Sorted descending :=
  fun _ _ _ hj => absurd hj (Nat.not_lt_zero _)

/-- A price is listed exactly when some level in use has it. -/
theorem mem_prices {p : UInt32} : p ∈ s.prices ↔ ∃ level, s.Has level ∧ level.price = p := by
  simp only [prices, List.mem_map, List.mem_range, Has, SortedPrefix.Has]
  constructor
  · rintro ⟨i, hi, rfl⟩
    exact ⟨_, ⟨i, hi, rfl⟩, rfl⟩
  · rintro ⟨_, ⟨i, hi, rfl⟩, rfl⟩
    exact ⟨i, hi, rfl⟩

theorem notMem_prices {p : UInt32} : p ∉ s.prices ↔ ∀ level, s.Has level → level.price ≠ p := by
  rw [mem_prices]
  simp only [not_exists, not_and, ne_eq]

/-- The prices of a sorted side are listed best first, each once. -/
theorem Sorted.pairwise_prices (hs : s.Sorted descending) :
    s.prices.Pairwise (Before descending) := by
  rw [prices, List.pairwise_map]
  refine List.Pairwise.imp_of_mem ?_ List.pairwise_lt_range
  intro i j _ hj hij
  exact hs i j hij (List.mem_range.mp hj)

theorem length_prices (s : BookSide) : s.prices.length = s.count := by
  rw [prices, List.length_map, List.length_range]

end BookSide

end NanoRing
