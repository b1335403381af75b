import NanoRing.Book.PriceLevels
import Mathlib.Data.List.Sort

/-!
# Listed prices and the best price

What the level helpers do to the list of prices of a sorted side, and so to its first
price. An addition lists its price unless the full array refuses it; a removal takes its
price off the list when the shares cover the total of the level, whatever the total is.
-/

namespace NanoRing

namespace BookSide

variable {s : BookSide} {descending : Bool}

/-! ## The listed prices -/

/-- An addition at the price is dropped: the array is full and does not list the price. -/
def Refuses (s : BookSide) (price : UInt32) : Prop := maxLevels ≤ s.count ∧ price ∉ s.prices

instance (s : BookSide) (price : UInt32) : Decidable (s.Refuses price) :=
  inferInstanceAs (Decidable (_ ∧ _))

/-- The shares cover the total of the level at the price. -/
def Covers (s : BookSide) (price shares : UInt32) : Prop :=
  ∃ level, s.Has level ∧ level.price = price ∧ level.totalShares ≤ shares

instance (s : BookSide) (price shares : UInt32) : Decidable (s.Covers price shares) :=
  decidable_of_iff
    (∃ i < s.count, (s.levels i).price = price ∧ (s.levels i).totalShares ≤ shares)
    ⟨fun ⟨i, hi, h⟩ => ⟨_, ⟨i, hi, rfl⟩, h⟩, fun ⟨_, ⟨i, hi, hlevel⟩, h⟩ => ⟨i, hi, hlevel ▸ h⟩⟩

/-- Levels of a sorted side with the same price are the same level. -/
theorem Sorted.has_unique (hs : s.Sorted descending) {l l' : PriceLevel} (hl : s.Has l)
    (hl' : s.Has l') (hprice : l.price = l'.price) : l = l' := by
  obtain ⟨i, hi, rfl⟩ := hl
  obtain ⟨j, hj, rfl⟩ := hl'
  rw [SortedPrefix.Sorted.index_eq hs hi hj hprice]

/-- An addition lists its price, unless it is refused. -/
theorem Sorted.mem_prices_addToLevels (hs : s.Sorted descending) (price shares p : UInt32) :
    p ∈ (s.addToLevels price shares descending).prices ↔
      p ∈ s.prices ∨ (p = price ∧ ¬ s.Refuses price) := by
  simp only [Refuses, mem_prices]
  cases (hs.addToLevels_spec price shares).2 with
  | bumped old hold hprice _ hhas =>
    simp only [hhas]
    constructor
    · rintro ⟨level, rfl | ⟨hlevel, -⟩, rfl⟩
      · exact Or.inl ⟨old, hold, hprice⟩
      · exact Or.inl ⟨level, hlevel, rfl⟩
    · rintro (⟨level, hlevel, rfl⟩ | ⟨rfl, -⟩)
      · by_cases hsame : level.price = price
        · exact ⟨_, Or.inl rfl, hsame.symm⟩
        · exact ⟨level, Or.inr ⟨hlevel, hsame⟩, rfl⟩
      · exact ⟨_, Or.inl rfl, rfl⟩
  | inserted habsent hroom _ hhas =>
    simp only [hhas]
    constructor
    · rintro ⟨level, rfl | hlevel, rfl⟩
      · exact Or.inr ⟨rfl, fun h => by omega⟩
      · exact Or.inl ⟨level, hlevel, rfl⟩
    · rintro (⟨level, hlevel, rfl⟩ | ⟨rfl, -⟩)
      · exact ⟨level, Or.inr hlevel, rfl⟩
      · exact ⟨_, Or.inl rfl, rfl⟩
  | refused habsent hfull hsame =>
    rw [hsame]
    refine ⟨Or.inl, fun h => h.resolve_right ?_⟩
    rintro ⟨-, hnot⟩
    exact hnot ⟨hfull, fun ⟨level, hlevel, hprice⟩ => habsent level hlevel hprice⟩

/-- A removal takes its price off the list exactly when it covers the level. -/
theorem Sorted.mem_prices_removeFromLevels (hs : s.Sorted descending) (price shares p : UInt32) :
    p ∈ (s.removeFromLevels price shares descending).prices ↔
      p ∈ s.prices ∧ ¬ (p = price ∧ s.Covers price shares) := by
  simp only [mem_prices]
  cases (hs.removeFromLevels_spec price shares).2 with
  | absent habsent hsame =>
    rw [hsame]
    refine ⟨fun h => ⟨h, ?_⟩, fun h => h.1⟩
    rintro ⟨-, level, hlevel, hprice, -⟩
    exact habsent level hlevel hprice
  | removed old hold hprice hcover _ hhas =>
    simp only [hhas]
    constructor
    · rintro ⟨level, ⟨hlevel, hne⟩, rfl⟩
      exact ⟨⟨level, hlevel, rfl⟩, fun h => hne h.1⟩
    · rintro ⟨⟨level, hlevel, rfl⟩, hnot⟩
      exact ⟨level, ⟨hlevel, fun hsame => hnot ⟨hsame, old, hold, hprice, hcover⟩⟩, rfl⟩
  | reduced old hold hprice hless _ hhas =>
    simp only [hhas]
    constructor
    · rintro ⟨level, hlevel, rfl⟩
      refine ⟨?_, ?_⟩
      · rcases hlevel with rfl | ⟨hlevel, -⟩
        · exact ⟨old, hold, hprice⟩
        · exact ⟨level, hlevel, rfl⟩
      · rintro ⟨-, level', hlevel', hprice', hcover⟩
        rw [hs.has_unique hlevel' hold (hprice'.trans hprice.symm)] at hcover
        exact absurd hless (UInt32.not_lt.mpr hcover)
    · rintro ⟨⟨level, hlevel, rfl⟩, -⟩
      by_cases hsame : level.price = price
      · exact ⟨_, Or.inl rfl, hsame.symm⟩
      · exact ⟨level, Or.inr ⟨hlevel, hsame⟩, rfl⟩

/-- A removal shortens the side by one level when it covers the level at its price. -/
theorem Sorted.count_removeFromLevels (hs : s.Sorted descending) (price shares : UInt32) :
    (s.Covers price shares → (s.removeFromLevels price shares descending).count + 1 = s.count) ∧
      (¬ s.Covers price shares → (s.removeFromLevels price shares descending).count = s.count) := by
  cases (hs.removeFromLevels_spec price shares).2 with
  | absent habsent hsame =>
    refine ⟨?_, fun _ => by rw [hsame]⟩
    rintro ⟨level, hlevel, hprice, -⟩
    exact absurd hprice (habsent level hlevel)
  | removed old hold hprice hcover hcount _ =>
    exact ⟨fun _ => hcount, fun hnot => absurd ⟨old, hold, hprice, hcover⟩ hnot⟩
  | reduced old hold hprice hless hcount _ =>
    refine ⟨?_, fun _ => hcount⟩
    rintro ⟨level, hlevel, hprice', hcover⟩
    rw [hs.has_unique hlevel hold (hprice'.trans hprice.symm)] at hcover
    exact absurd hless (UInt32.not_lt.mpr hcover)

/-! ## The best price -/

/-- `levels[0].price`, or zero for a side without levels. -/
def top (s : BookSide) : UInt32 := if s.count > 0 then (s.levels 0).price else 0

theorem top_of_count_eq_zero (h : s.count = 0) : s.top = 0 := by
  rw [top, if_neg (by omega)]

/-- The best price of a side with levels is listed. -/
theorem top_mem_prices (h : 0 < s.count) : s.top ∈ s.prices := by
  rw [top, if_pos h, mem_prices]
  exact ⟨_, ⟨0, h, rfl⟩, rfl⟩

/-- A listed price means a level. -/
theorem count_pos_of_mem_prices {p : UInt32} (h : p ∈ s.prices) : 0 < s.count := by
  rw [← length_prices]
  exact List.length_pos_of_mem h

/-- No listed price comes before the best one. -/
theorem Sorted.not_before_top (hs : s.Sorted descending) {p : UInt32} (hp : p ∈ s.prices) :
    ¬ Before descending p s.top := by
  rw [top, if_pos (count_pos_of_mem_prices hp)]
  obtain ⟨_, ⟨i, hi, rfl⟩, rfl⟩ := mem_prices.mp hp
  rcases Nat.eq_zero_or_pos i with rfl | hpos
  · exact irrefl_of (Before descending) _
  · exact asymm_of (Before descending) (hs 0 i hpos hi)

/-- The best price is the listed price that no listed price comes before. -/
theorem Sorted.top_eq (hs : s.Sorted descending) {p : UInt32} (hp : p ∈ s.prices)
    (hfirst : ∀ q, q ∈ s.prices → ¬ Before descending q p) : s.top = p := by
  rcases trichotomous_of (Before descending) s.top p with hlt | heq | hgt
  · exact absurd hlt (hfirst _ (top_mem_prices (count_pos_of_mem_prices hp)))
  · exact heq
  · exact absurd hgt (hs.not_before_top hp)

/-- After an addition the best price is the old one or the added one: the old one when the
addition is refused or does not come before it. -/
theorem Sorted.top_addToLevels (hs : s.Sorted descending) (price shares : UInt32) :
    (s.addToLevels price shares descending).top = s.top ∧
        (s.Refuses price ∨ 0 < s.count ∧ ¬ Before descending price s.top) ∨
      (s.addToLevels price shares descending).top = price ∧ ¬ s.Refuses price ∧
        (s.count = 0 ∨ Before descending price s.top) := by
  have hs' := (hs.addToLevels_spec price shares).1
  have hmem := hs.mem_prices_addToLevels price shares
  by_cases hrefuses : s.Refuses price
  · have hpos : 0 < s.count := lt_of_lt_of_le (by decide) hrefuses.1
    refine Or.inl ⟨hs'.top_eq ((hmem _).mpr (Or.inl (top_mem_prices hpos))) fun q hq => ?_,
      Or.inl hrefuses⟩
    exact hs.not_before_top (((hmem q).mp hq).resolve_right fun h => h.2 hrefuses)
  · by_cases hbetter : s.count = 0 ∨ Before descending price s.top
    · refine Or.inr ⟨hs'.top_eq ((hmem _).mpr (Or.inr ⟨rfl, hrefuses⟩)) fun q hq => ?_,
        hrefuses, hbetter⟩
      rcases (hmem q).mp hq with hold | ⟨rfl, -⟩
      · intro hbefore
        rcases hbetter with hzero | hprice
        · exact absurd (count_pos_of_mem_prices hold) (by omega)
        · exact hs.not_before_top hold (trans_of (Before descending) hbefore hprice)
      · exact irrefl_of (Before descending) q
    · obtain ⟨hne, hnot⟩ := not_or.mp hbetter
      have hpos : 0 < s.count := Nat.pos_of_ne_zero hne
      refine Or.inl ⟨hs'.top_eq ((hmem _).mpr (Or.inl (top_mem_prices hpos))) fun q hq => ?_,
        Or.inr ⟨hpos, hnot⟩⟩
      rcases (hmem q).mp hq with hold | ⟨rfl, -⟩
      · exact hs.not_before_top hold
      · exact hnot

/-- A removal that leaves the best level keeps the best price. -/
theorem Sorted.top_removeFromLevels (hs : s.Sorted descending) {price shares : UInt32}
    (h : ¬ (s.top = price ∧ s.Covers price shares)) :
    (s.removeFromLevels price shares descending).top = s.top := by
  have hs' := (hs.removeFromLevels_spec price shares).1
  have hmem := hs.mem_prices_removeFromLevels price shares
  rcases Nat.eq_zero_or_pos s.count with hzero | hpos
  · have hnone : ¬ s.Covers price shares := by
      rintro ⟨level, ⟨i, hi, -⟩, -⟩
      omega
    rw [top_of_count_eq_zero hzero,
      top_of_count_eq_zero (((hs.count_removeFromLevels price shares).2 hnone).trans hzero)]
  · refine hs'.top_eq ((hmem _).mpr ⟨top_mem_prices hpos, h⟩) fun q hq => ?_
    exact hs.not_before_top ((hmem q).mp hq).1

/-- The best of the listed prices other than the given one, or zero. -/
def topWithout (s : BookSide) (price : UInt32) : UInt32 :=
  (s.prices.filter fun p => p ≠ price).head?.getD 0

theorem top_eq_head (s : BookSide) : s.top = s.prices.head?.getD 0 := by
  unfold top prices
  cases s.count with
  | zero => rfl
  | succ n => simp [List.range_succ_eq_map]

/-- A removal that covers its level leaves the other prices. -/
theorem Sorted.top_removeFromLevels_of_covers (hs : s.Sorted descending) {price shares : UInt32}
    (hcovers : s.Covers price shares) :
    (s.removeFromLevels price shares descending).top = s.topWithout price := by
  have hs' := (hs.removeFromLevels_spec price shares).1
  have hprices : (s.removeFromLevels price shares descending).prices =
      s.prices.filter fun p => p ≠ price := by
    refine hs'.pairwise_prices.eq_of_mem_iff (hs.pairwise_prices.filter _) fun p => ?_
    rw [hs.mem_prices_removeFromLevels, List.mem_filter, decide_eq_true_iff]
    exact and_congr_right fun _ => not_congr (and_iff_left hcovers)
  rw [top_eq_head, hprices, topWithout]

/-- The best price after a removal, in terms of the side before it. -/
def topLeft (s : BookSide) (price shares : UInt32) : UInt32 :=
  if s.Covers price shares then s.topWithout price else s.top

theorem Sorted.top_removeFromLevels_eq (hs : s.Sorted descending) (price shares : UInt32) :
    (s.removeFromLevels price shares descending).top = s.topLeft price shares := by
  unfold topLeft
  split
  · rename_i hcovers
    exact hs.top_removeFromLevels_of_covers hcovers
  · rename_i hkept
    exact hs.top_removeFromLevels fun h => hkept h.2

/-- A removal of the best level changes the best price, unless it was the only level and its
price was zero. -/
theorem Sorted.top_removeFromLevels_eq_iff (hs : s.Sorted descending) {price shares : UInt32}
    (hcovers : s.Covers price shares) :
    (s.removeFromLevels price shares descending).top = price ↔ price = 0 ∧ s.count = 1 := by
  have hcount := (hs.count_removeFromLevels price shares).1 hcovers
  rcases Nat.eq_zero_or_pos (s.removeFromLevels price shares descending).count with hzero | hpos
  · rw [top_of_count_eq_zero hzero]
    exact ⟨fun h => ⟨h.symm, by omega⟩, fun h => h.1.symm⟩
  · have hmem := (hs.mem_prices_removeFromLevels price shares _).mp (top_mem_prices hpos)
    exact ⟨fun h => absurd ⟨h, hcovers⟩ hmem.2, fun h => by omega⟩

end BookSide

end NanoRing
