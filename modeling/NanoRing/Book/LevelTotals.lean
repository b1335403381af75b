import NanoRing.Book.PriceLevels
import Mathlib.Data.Set.Card

/-!
# Level arrays that report totals

A side reports a function from prices to share totals when it lists exactly the prices of
positive total, each with that total. Adding shares keeps the report as long as the new
total fits in 32 bits and the array has room for a new price; removing shares keeps it as
long as they are part of the total.
-/

namespace NanoRing

namespace BookSide

/-- The side lists exactly the prices of positive total, with their totals. -/
structure Reports (s : BookSide) (descending : Bool) (total : UInt32 → ℕ) : Prop where
  sorted : s.Sorted descending
  bounded : s.count ≤ maxLevels
  level : ∀ l, s.Has l → l.totalShares.toNat = total l.price ∧ 0 < total l.price
  complete : ∀ p, 0 < total p → ∃ l, s.Has l ∧ l.price = p

variable {s : BookSide} {descending : Bool} {total total' : UInt32 → ℕ} {price shares : UInt32}

/-- The listed prices are those of positive total. -/
theorem Reports.mem_prices_iff (h : s.Reports descending total) (p : UInt32) :
    p ∈ s.prices ↔ 0 < total p := by
  rw [mem_prices]
  constructor
  · rintro ⟨l, hl, rfl⟩
    exact (h.level l hl).2
  · exact h.complete p

/-- The number of levels is the number of prices of positive total. -/
theorem Reports.ncard_eq (h : s.Reports descending total) : {p | 0 < total p}.ncard = s.count := by
  classical
  have hset : {p | 0 < total p} = ↑s.prices.toFinset := by
    ext p
    rw [Set.mem_ofPred_eq, List.coe_toFinset, Set.mem_ofPred_eq, h.mem_prices_iff]
  have hnodup : s.prices.Nodup := by
    refine h.sorted.pairwise_prices.imp ?_
    rintro p _ hlt rfl
    exact irrefl_of (Before descending) p hlt
  rw [hset, Set.ncard_coe_finset, List.toFinset_card_of_nodup hnodup, length_prices]

/-- Equal totals are reported alike. -/
theorem Reports.congr (h : s.Reports descending total) (hsame : ∀ p, total' p = total p) :
    s.Reports descending total' := by
  rwa [funext hsame]

/-- An empty side reports that nothing rests. -/
theorem reports_empty (descending : Bool) : ({} : BookSide).Reports descending fun _ => 0 where
  sorted := sorted_empty descending
  bounded := Nat.zero_le _
  level := fun _ ⟨_, hi, _⟩ => absurd hi (Nat.not_lt_zero _)
  complete := fun _ hp => absurd hp (Nat.lt_irrefl 0)

/-- A side that has one level of its own for a price, and the old levels of the others, reports
totals that differ at that price only. -/
theorem Reports.of_level (h : s.Reports descending total) {s' : BookSide}
    (hsorted : s'.Sorted descending) (hbounded : s'.count ≤ maxLevels)
    (hother : ∀ p, p ≠ price → total' p = total p) {new : PriceLevel} (hprice : new.price = price)
    (hnew : new.totalShares.toNat = total' price) (hpos : 0 < total' price)
    (hhas : ∀ level, s'.Has level ↔ level = new ∨ (s.Has level ∧ level.price ≠ price)) :
    s'.Reports descending total' := by
  refine ⟨hsorted, hbounded, fun l hl => ?_, fun p hp => ?_⟩
  · rcases (hhas l).mp hl with rfl | ⟨hl, hne⟩
    · rw [hprice]
      exact ⟨hnew, hpos⟩
    · rw [hother _ hne]
      exact h.level l hl
  · by_cases hpp : p = price
    · subst hpp
      exact ⟨new, (hhas new).mpr (Or.inl rfl), hprice⟩
    · obtain ⟨l, hl, rfl⟩ := h.complete p (hother p hpp ▸ hp)
      exact ⟨l, (hhas l).mpr (Or.inr ⟨hl, hpp⟩), rfl⟩

/-- Adding shares adds them to the total of their price. -/
theorem Reports.addToLevels (h : s.Reports descending total)
    (hself : total' price = total price + shares.toNat)
    (hother : ∀ p, p ≠ price → total' p = total p) (hpos : 0 < shares.toNat)
    (hfits : total' price < 2 ^ 32) (hroom : 0 < total price ∨ s.count < maxLevels) :
    (s.addToLevels price shares descending).Reports descending total' := by
  obtain ⟨hsorted, hresult⟩ := h.sorted.addToLevels_spec price shares
  have hpositive : 0 < total' price := by omega
  cases hresult with
  | bumped old hold hprice hcount hhas =>
    have hsum : (old.totalShares + shares).toNat = total' price := by
      rw [UInt32.toNat_add, (h.level old hold).1, hprice, ← hself, Nat.mod_eq_of_lt hfits]
    exact h.of_level hsorted (hcount ▸ h.bounded) hother rfl hsum hpositive hhas
  | inserted habsent hless hcount hhas =>
    have hzero : total price = 0 := by
      by_contra hne
      obtain ⟨l, hl, hlp⟩ := h.complete price (Nat.pos_of_ne_zero hne)
      exact habsent l hl hlp
    have hnew : shares.toNat = total' price := by rw [hself, hzero, Nat.zero_add]
    have hown (l : PriceLevel) : (s.addToLevels price shares descending).Has l ↔
        l = ⟨price, shares, 1⟩ ∨ (s.Has l ∧ l.price ≠ price) := by
      rw [hhas, and_iff_left_of_imp (habsent l)]
    exact h.of_level hsorted (by rw [hcount]; omega) hother rfl hnew hpositive hown
  | refused habsent hfull _ =>
    rcases hroom with hlive | hless
    · obtain ⟨l, hl, hlp⟩ := h.complete price hlive
      exact absurd hlp (habsent l hl)
    · omega

/-- Removing shares takes them from the total of their price. -/
theorem Reports.removeFromLevels (h : s.Reports descending total)
    (hself : total' price + shares.toNat = total price)
    (hother : ∀ p, p ≠ price → total' p = total p) (hlive : 0 < total price) :
    (s.removeFromLevels price shares descending).Reports descending total' := by
  obtain ⟨hsorted, hresult⟩ := h.sorted.removeFromLevels_spec price shares
  have hbounded := h.bounded
  cases hresult with
  | absent habsent _ =>
    obtain ⟨l, hl, hlp⟩ := h.complete price hlive
    exact absurd hlp (habsent l hl)
  | removed old hold hprice hcover hcount hhas =>
    have hzero : total' price = 0 := by
      have hold := (h.level old hold).1
      rw [hprice] at hold
      have := UInt32.le_iff_toNat_le.mp hcover
      omega
    refine ⟨hsorted, by omega, fun l hl => ?_, fun p hp => ?_⟩
    · obtain ⟨hl, hne⟩ := (hhas l).mp hl
      rw [hother _ hne]
      exact h.level l hl
    · have hpp : p ≠ price := by
        rintro rfl
        omega
      obtain ⟨l, hl, rfl⟩ := h.complete p (hother p hpp ▸ hp)
      exact ⟨l, (hhas l).mpr ⟨hl, hpp⟩, rfl⟩
  | reduced old hold hprice hless hcount hhas =>
    have hold := (h.level old hold).1
    rw [hprice] at hold
    have hless' := UInt32.lt_iff_toNat_lt.mp hless
    have hdiff : (old.totalShares - shares).toNat = total' price := by
      rw [UInt32.toNat_sub_of_le _ _ (UInt32.le_of_lt hless)]
      omega
    exact h.of_level hsorted (hcount ▸ hbounded) hother rfl hdiff (by omega) hhas

end BookSide

end NanoRing
