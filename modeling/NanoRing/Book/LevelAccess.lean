import NanoRing.Book.LevelCalls
import NanoRing.Common.CheckedPrefix

/-!
# Level arrays as arrays and as maps

A level array has 256 cells. The level helpers are stated here once more with every
access checked against the array, and every read against the count as well; on a sorted
array within its bounds no check fails. Seen as a map from prices to levels, such an array
changes at most at the price of the call.
-/

namespace NanoRing

namespace BookSide

open SortedPrefix

/-! ## Checked helpers -/

def binaryFindChecked (s : BookSide) (price : UInt32) (descending : Bool) : Option ℤ :=
  searchChecked s.levels maxLevels s.count (fun level => level.price == price)
    (fun level => if descending then level.price > price else level.price < price)
    s.count 0 ((s.count : ℤ) - 1)

def addToLevelsChecked (s : BookSide) (price shares : UInt32) (descending : Bool) :
    Option BookSide :=
  (s.binaryFindChecked price descending).bind fun idx =>
    if idx ≥ 0 then
      (readAt s.levels maxLevels s.count idx.toNat).bind fun level =>
        let bumped := { level with
          totalShares := level.totalShares + shares, orderCount := level.orderCount + 1 }
        (writeAt s.levels maxLevels idx.toNat bumped).map fun levels => { s with levels := levels }
    else if s.count ≥ maxLevels then some s
    else
      let insertPos := (-(idx + 1)).toNat
      (shiftRightChecked maxLevels s.count insertPos s.levels s.count).bind fun levels =>
        (writeAt levels maxLevels insertPos ⟨price, shares, 1⟩).map fun levels =>
          { levels := levels, count := s.count + 1 }

def removeFromLevelsChecked (s : BookSide) (price shares : UInt32) (descending : Bool) :
    Option BookSide :=
  (s.binaryFindChecked price descending).bind fun idx =>
    if idx < 0 then some s
    else
      let i := idx.toNat
      (readAt s.levels maxLevels s.count i).bind fun level =>
        if shares ≥ level.totalShares then
          (shiftLeftChecked maxLevels s.count i s.levels).map fun levels =>
            { levels := levels, count := s.count - 1 }
        else
          let reduced := { level with
            totalShares := level.totalShares - shares, orderCount := level.orderCount - 1 }
          (writeAt s.levels maxLevels i reduced).map fun levels => { s with levels := levels }

variable {s : BookSide} {descending : Bool}

theorem Ranked.binaryFindChecked_eq (h : s.Ranked descending) (price : UInt32) :
    s.binaryFindChecked price descending = some (s.binaryFind price descending) :=
  searchChecked_eq s.levels h.bounded _ _ s.count 0 s.count (by omega) (by omega) le_rfl

/-- Adding shares to a ranked array accesses it within its bounds. -/
theorem Ranked.addToLevelsChecked_eq (h : s.Ranked descending) (price shares : UInt32) :
    s.addToLevelsChecked price shares descending =
      some (s.addToLevels price shares descending) := by
  have hbounded := h.bounded
  simp only [addToLevelsChecked, BookSide.addToLevels, h.binaryFindChecked_eq, Option.bind_some]
  rcases h.sorted.binaryFind_spec price with ⟨m, hm, -, hidx⟩ | ⟨p, hp, hidx, -, -⟩
  · rw [hidx, if_pos (by omega), if_pos (by omega), Int.toNat_natCast,
      readAt_eq s.levels hbounded hm, Option.bind_some, writeAt_eq s.levels (by omega)]
    rfl
  · have hpos : (-(-((p : ℤ) + 1) + 1)).toNat = p := by omega
    have hneg : ¬ -((p : ℤ) + 1) ≥ 0 := by omega
    rw [hidx, if_neg hneg, if_neg hneg, hpos]
    split
    · rfl
    · rw [shiftRightChecked_eq s.levels (by omega) p le_rfl, Option.bind_some,
        writeAt_eq _ (by omega)]
      rfl

/-- Removing shares from a ranked array accesses it within its bounds. -/
theorem Ranked.removeFromLevelsChecked_eq (h : s.Ranked descending) (price shares : UInt32) :
    s.removeFromLevelsChecked price shares descending =
      some (s.removeFromLevels price shares descending) := by
  have hbounded := h.bounded
  simp only [removeFromLevelsChecked, BookSide.removeFromLevels, h.binaryFindChecked_eq,
    Option.bind_some]
  rcases h.sorted.binaryFind_spec price with ⟨m, hm, -, hidx⟩ | ⟨p, hp, hidx, -, -⟩
  · rw [hidx, if_neg (by omega), if_neg (by omega), Int.toNat_natCast,
      readAt_eq s.levels hbounded hm, Option.bind_some]
    split
    · rw [shiftLeftChecked_eq s.levels hbounded hm]
      rfl
    · rw [writeAt_eq s.levels (by omega)]
      rfl
  · rw [hidx, if_pos (by omega), if_pos (by omega)]

/-! ## The array as a map from prices to levels -/

/-- The level in use at a price. -/
def levelAt (s : BookSide) (price : UInt32) : Option PriceLevel :=
  ((List.range s.count).map s.levels).find? fun level => level.price == price

/-- On a sorted side the level at a price is the level that has it. -/
theorem Sorted.levelAt_eq_some_iff (hs : s.Sorted descending) {price : UInt32}
    {level : PriceLevel} : s.levelAt price = some level ↔ s.Has level ∧ level.price = price := by
  have hmem (l : PriceLevel) : l ∈ (List.range s.count).map s.levels ↔ s.Has l := by
    simp only [List.mem_map, List.mem_range, Has, SortedPrefix.Has]
  have hprice (l : PriceLevel) (h : s.levelAt price = some l) : l.price = price := by
    have := List.find?_some h
    simpa using this
  constructor
  · intro h
    exact ⟨(hmem level).mp (List.mem_of_find?_eq_some h), hprice level h⟩
  · rintro ⟨hlevel, rfl⟩
    have hsome : (s.levelAt level.price).isSome = true :=
      List.find?_isSome.mpr ⟨level, (hmem level).mpr hlevel, by simp only [beq_self_eq_true]⟩
    obtain ⟨found, hfound⟩ := Option.isSome_iff_exists.mp hsome
    rw [hfound, hs.has_unique ((hmem found).mp (List.mem_of_find?_eq_some hfound)) hlevel
      (hprice found hfound)]

/-- A price without a level is a price that is not listed. -/
theorem Sorted.levelAt_eq_none_iff (hs : s.Sorted descending) {price : UInt32} :
    s.levelAt price = none ↔ price ∉ s.prices := by
  rw [mem_prices, Option.eq_none_iff_forall_ne_some]
  simp only [ne_eq, hs.levelAt_eq_some_iff, not_exists]

/-- The level that an addition leaves at its price. -/
def addedLevel (price shares : UInt32) : Option PriceLevel → PriceLevel
  | none => ⟨price, shares, 1⟩
  | some old => ⟨price, old.totalShares + shares, old.orderCount + 1⟩

/-- The level that a removal leaves at its price. -/
def reducedLevel (price shares : UInt32) : Option PriceLevel → Option PriceLevel
  | none => none
  | some old =>
    if shares ≥ old.totalShares then none
    else some ⟨price, old.totalShares - shares, old.orderCount - 1⟩

/-- A side with its own level at one price, and the old levels elsewhere, is the old map
updated at that price. -/
theorem Sorted.levelAt_eq_update (hs : s.Sorted descending) {s' : BookSide}
    (hs' : s'.Sorted descending) {price : UInt32} {new : Option PriceLevel}
    (hnew : ∀ level ∈ new, level.price = price)
    (hhas : ∀ level, s'.Has level ↔ level ∈ new ∨ (s.Has level ∧ level.price ≠ price)) :
    s'.levelAt = Function.update s.levelAt price new := by
  funext p
  ext level
  rw [hs'.levelAt_eq_some_iff, hhas]
  by_cases hp : p = price
  · subst hp
    rw [Function.update_self]
    constructor
    · rintro ⟨hlevel | ⟨-, hne⟩, hprice⟩
      · exact hlevel
      · exact absurd hprice hne
    · intro hlevel
      exact ⟨Or.inl hlevel, hnew level hlevel⟩
  · rw [Function.update_of_ne hp, hs.levelAt_eq_some_iff]
    constructor
    · rintro ⟨hlevel | ⟨hlevel, -⟩, hprice⟩
      · exact absurd (hprice.symm.trans (hnew level hlevel)) hp
      · exact ⟨hlevel, hprice⟩
    · rintro ⟨hlevel, hprice⟩
      exact ⟨Or.inr ⟨hlevel, hprice ▸ hp⟩, hprice⟩

/-- An addition that is not refused updates the map at its price. -/
theorem Sorted.levelAt_addToLevels (hs : s.Sorted descending) {price : UInt32} (shares : UInt32)
    (h : ¬ s.Refuses price) :
    (s.addToLevels price shares descending).levelAt =
      Function.update s.levelAt price (some (addedLevel price shares (s.levelAt price))) := by
  obtain ⟨hs', hresult⟩ := hs.addToLevels_spec price shares
  cases hresult with
  | bumped old hold hprice _ hhas =>
    rw [hs.levelAt_eq_some_iff.mpr ⟨hold, hprice⟩]
    refine hs.levelAt_eq_update hs' (fun level hlevel => ?_) fun level => ?_
    · cases hlevel
      rfl
    · rw [hhas, Option.mem_some, eq_comm]
      rfl
  | inserted habsent _ _ hhas =>
    have hnone : s.levelAt price = none :=
      hs.levelAt_eq_none_iff.mpr (notMem_prices.mpr habsent)
    rw [hnone]
    refine hs.levelAt_eq_update hs' (fun level hlevel => ?_) fun level => ?_
    · cases hlevel
      rfl
    · rw [hhas, Option.mem_some, eq_comm, and_iff_left_of_imp (habsent level)]
      rfl
  | refused habsent hfull _ =>
    exact absurd ⟨hfull, notMem_prices.mpr habsent⟩ h

/-- A refused addition changes nothing at all. -/
theorem Sorted.addToLevels_of_refuses (hs : s.Sorted descending) {price : UInt32} (shares : UInt32)
    (h : s.Refuses price) : s.addToLevels price shares descending = s := by
  cases (hs.addToLevels_spec price shares).2 with
  | bumped old hold hprice _ _ => exact absurd (mem_prices.mpr ⟨old, hold, hprice⟩) h.2
  | inserted _ hroom _ _ => exact absurd h.1 (by omega)
  | refused _ _ hsame => exact hsame

/-- A removal updates the map at its price. -/
theorem Sorted.levelAt_removeFromLevels (hs : s.Sorted descending) (price shares : UInt32) :
    (s.removeFromLevels price shares descending).levelAt =
      Function.update s.levelAt price (reducedLevel price shares (s.levelAt price)) := by
  obtain ⟨hs', hresult⟩ := hs.removeFromLevels_spec price shares
  cases hresult with
  | absent habsent hsame =>
    have hnone : s.levelAt price = none :=
      hs.levelAt_eq_none_iff.mpr (notMem_prices.mpr habsent)
    rw [hsame, hnone, reducedLevel, ← hnone, Function.update_eq_self]
  | removed old hold hprice hcover _ hhas =>
    rw [hs.levelAt_eq_some_iff.mpr ⟨hold, hprice⟩, reducedLevel, if_pos hcover]
    refine hs.levelAt_eq_update hs' (fun level hlevel => by cases hlevel) fun level => ?_
    rw [hhas]
    simp
  | reduced old hold hprice hless _ hhas =>
    rw [hs.levelAt_eq_some_iff.mpr ⟨hold, hprice⟩, reducedLevel, if_neg (UInt32.not_le.mpr hless)]
    refine hs.levelAt_eq_update hs' (fun level hlevel => ?_) fun level => ?_
    · cases hlevel
      rfl
    · rw [hhas, Option.mem_some, eq_comm]

/-- A removal at a price that is not listed changes nothing at all. -/
theorem Sorted.removeFromLevels_of_absent (hs : s.Sorted descending) {price : UInt32}
    (shares : UInt32) (h : price ∉ s.prices) : s.removeFromLevels price shares descending = s := by
  cases (hs.removeFromLevels_spec price shares).2 with
  | absent _ hsame => exact hsame
  | removed old hold hprice _ _ _ => exact absurd (mem_prices.mpr ⟨old, hold, hprice⟩) h
  | reduced old hold hprice _ _ _ => exact absurd (mem_prices.mpr ⟨old, hold, hprice⟩) h

end BookSide

/-! ## Calls and runs -/

namespace LevelCall

/-- The side byte of a call. -/
def side : LevelCall → UInt8
  | .add side _ _ => side
  | .remove side _ _ => side

/-- The price of a call. -/
def price : LevelCall → UInt32
  | .add _ price _ => price
  | .remove _ price _ => price

end LevelCall

namespace LevelArrays

/-- `call` with checked accesses. -/
def callChecked (a : LevelArrays) : LevelCall → Option LevelArrays
  | .add side price shares =>
    ((a.array side).addToLevelsChecked price shares (side == sideBuy)).map (a.setArray side)
  | .remove side price shares =>
    ((a.array side).removeFromLevelsChecked price shares (side == sideBuy)).map (a.setArray side)

/-- `callAll` with checked accesses. -/
def callAllChecked (a : LevelArrays) (calls : List LevelCall) : Option LevelArrays :=
  calls.foldlM callChecked a

/-- The call finds no level to work on: a full array refuses a new price, or a removal has no
level at its price. -/
def Idle (a : LevelArrays) : LevelCall → Prop
  | .add side price _ => (a.array side).Refuses price
  | .remove side price _ => price ∉ (a.array side).prices

/-- The call changes the selected array only, as a map from prices only at its own price, and
nothing when it is idle. -/
structure ChangesOnly (a : LevelArrays) (c : LevelCall) : Prop where
  other_side : ∀ side, (side == sideBuy) ≠ (c.side == sideBuy) → (a.call c).array side = a.array side
  other_price : ∀ p, p ≠ c.price →
    ((a.call c).array c.side).levelAt p = (a.array c.side).levelAt p
  idle : a.Idle c → a.call c = a

variable {a : LevelArrays}

theorem setArray_self (a : LevelArrays) (side : UInt8) : a.setArray side (a.array side) = a := by
  unfold setArray array
  split <;> rfl

/-- On ranked arrays the accesses of a call are within bounds. -/
theorem Ranked.callChecked_eq (h : a.Ranked) (c : LevelCall) : a.callChecked c = some (a.call c) := by
  cases c with
  | add side price shares =>
    rw [callChecked, (h side).addToLevelsChecked_eq]
    rfl
  | remove side price shares =>
    rw [callChecked, (h side).removeFromLevelsChecked_eq]
    rfl

/-- On ranked arrays the accesses of all calls are within bounds. -/
theorem Ranked.callAllChecked_eq (h : a.Ranked) (calls : List LevelCall) :
    a.callAllChecked calls = some (a.callAll calls) := by
  induction calls generalizing a with
  | nil => rfl
  | cons c rest ih =>
    rw [callAllChecked, List.foldlM_cons, h.callChecked_eq]
    exact ih (h.call c)

/-- On ranked arrays every call changes one price only. -/
theorem Ranked.changesOnly (h : a.Ranked) (c : LevelCall) : a.ChangesOnly c := by
  cases c with
  | add side price shares =>
    have hs := (h side).sorted
    refine ⟨fun side' hne => ?_, fun p hp => ?_, fun hidle => ?_⟩
    · exact (array_setArray a side side' _).trans (if_neg hne)
    · rw [LevelArrays.call, LevelCall.side, array_setArray_self]
      by_cases hrefuses : (a.array side).Refuses price
      · rw [hs.addToLevels_of_refuses shares hrefuses]
      · rw [hs.levelAt_addToLevels shares hrefuses]
        exact Function.update_of_ne hp _ _
    · rw [LevelArrays.call, hs.addToLevels_of_refuses shares hidle, setArray_self]
  | remove side price shares =>
    have hs := (h side).sorted
    refine ⟨fun side' hne => ?_, fun p hp => ?_, fun hidle => ?_⟩
    · exact (array_setArray a side side' _).trans (if_neg hne)
    · rw [LevelArrays.call, LevelCall.side, array_setArray_self, hs.levelAt_removeFromLevels]
      exact Function.update_of_ne hp _ _
    · rw [LevelArrays.call, hs.removeFromLevels_of_absent shares hidle, setArray_self]

end LevelArrays

namespace OrderBook

/-- After any messages the level arrays are sorted and within their bounds, and the helper calls
of any further message stay within the bounds and change one price each. -/
theorem level_arrays_sorted_in_bounds (messages : List DecodedOrder) (m : DecodedOrder) :
    let b := empty.applyAll messages
    b.bids.count ≤ 256 ∧ b.asks.count ≤ 256 ∧
      (∀ i j, i < j → j < b.bids.count → (b.bids.levels i).price > (b.bids.levels j).price) ∧
      (∀ i j, i < j → j < b.asks.count → (b.asks.levels i).price < (b.asks.levels j).price) ∧
      b.levelArrays.callAllChecked (b.levelCalls m) = some (b.apply m).levelArrays ∧
      ∀ done c, done ++ [c] <+: b.levelCalls m → (b.levelArrays.callAll done).ChangesOnly c := by
  have hranked := applyAll_ranked messages
  have hbids := hranked sideBuy
  have hasks := hranked sideSell
  refine ⟨hbids.bounded, hasks.bounded, hbids.sorted, hasks.sorted, ?_, fun done c _ => ?_⟩
  · rw [hranked.callAllChecked_eq, levelArrays_apply]
  · exact (hranked.callAll done).changesOnly c

end OrderBook

end NanoRing
