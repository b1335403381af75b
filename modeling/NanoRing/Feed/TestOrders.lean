import NanoRing.Feed.TestData

/-!
# What the generated messages say

For every list of draws, both programs end up with one message for each draw, with its values, and
no reference is handed out twice. The raw records of the experiments decode to the same orders as
Adds, in every build of the batch decoder; the messages of the main program are its decoded records
with the types written into them.
-/

namespace NanoRing

open Feed SimdDecoder

/-- Fewer draws than an array can have entries. -/
def FitsArray (draws : List Draw) : Prop := draws.length < 2 ^ 63

theorem FitsArray.init {draws : List Draw} {d : Draw} (h : FitsArray (draws ++ [d])) :
    FitsArray draws := by
  rw [FitsArray, List.length_append] at h
  exact (Nat.le_add_right _ _).trans_lt h

/-- A counter that does not reach its width counts up by one. -/
theorem toNat_add_one {n : UInt64} (h : n.toNat + 1 < 2 ^ 64) : (n + 1).toNat = n.toNat + 1 := by
  rw [UInt64.toNat_add]
  exact Nat.mod_eq_of_lt h

section Counter

variable {orders : List DecodedOrder} {next : UInt64}

/-- Every reference that was handed out is below the counter. -/
def AllBelow (orders : List DecodedOrder) (next : UInt64) : Prop :=
  ∀ order ∈ orders, order.orderRef < next ∧ (order.type = .replace → order.newOrderRef < next)

theorem handsOutOnce_nil : HandsOutOnce [] := ⟨.nil, fun _ h => (by cases h), .nil⟩

/-- An order with the counter as its reference, and a replacement from above it, keeps the
references distinct. -/
theorem HandsOutOnce.snoc (h : HandsOutOnce orders) (hbelow : AllBelow orders next)
    {order : DecodedOrder} (href : order.orderRef = next)
    (hnew : order.type = .replace → next < order.newOrderRef) : HandsOutOnce (orders ++ [order]) := by
  refine ⟨?_, fun o ho htype other hother => ?_, ?_⟩
  · refine List.pairwise_append.mpr ⟨h.ascending, List.pairwise_singleton _ _, fun o ho o' ho' => ?_⟩
    rw [List.mem_singleton.mp ho', href]
    exact (hbelow o ho).1
  · rcases List.mem_append.mp ho with hold | hlast
    · rcases List.mem_append.mp hother with hold' | hlast'
      · exact h.fresh o hold htype other hold'
      · rw [List.mem_singleton.mp hlast', href]
        exact (UInt64.ne_of_lt ((hbelow o hold).2 htype)).symm
    · rw [List.mem_singleton.mp hlast] at htype ⊢
      refine UInt64.ne_of_lt (UInt64.lt_of_le_of_lt ?_ (hnew htype))
      rcases List.mem_append.mp hother with hold' | hlast'
      · exact UInt64.le_of_lt (hbelow other hold').1
      · rw [List.mem_singleton.mp hlast', href]
        exact UInt64.le_refl next
  · refine List.pairwise_append.mpr ⟨h.distinct, List.pairwise_singleton _ _, fun o ho o' ho' => ?_⟩
    rw [List.mem_singleton.mp ho']
    exact fun htype htype' => UInt64.ne_of_lt (UInt64.lt_trans ((hbelow o ho).2 htype) (hnew htype'))

/-- A counter that has moved on is above what was below it, and above the new order. -/
theorem AllBelow.snoc (h : AllBelow orders next) {next' : UInt64} (hnext : next < next')
    {order : DecodedOrder} (href : order.orderRef < next')
    (hnew : order.type = .replace → order.newOrderRef < next') : AllBelow (orders ++ [order]) next' := by
  intro o ho
  rcases List.mem_append.mp ho with hold | hlast
  · obtain ⟨hrefs, hnews⟩ := h o hold
    exact ⟨UInt64.lt_trans hrefs hnext, fun htype => UInt64.lt_trans (hnews htype) hnext⟩
  · rw [List.mem_singleton.mp hlast]
    exact ⟨href, hnew⟩

end Counter

/-- One more pair at the end. -/
theorem forall₂_snoc {α β : Type*} {R : α → β → Prop} {as : List α} {bs : List β} {a : α} {b : β}
    (h : List.Forall₂ R as bs) (hlast : R a b) : List.Forall₂ R (as ++ [a]) (bs ++ [b]) :=
  List.rel_append h (.cons hlast .nil)

/-- An Add, a Replace and a Delete of three tickers. -/
def threeDraws : List Draw :=
  [⟨0, 100000, 1, true, 3, by decide, by decide⟩, ⟨2, 250000, 700, false, 9, by decide, by decide⟩,
    ⟨60, 500000, 1000, true, 8, by decide, by decide⟩]

theorem threeDraws_fit : FitsArray threeDraws := by
  unfold FitsArray
  decide

/-! ## The loop of the experiments -/

namespace Experiments

/-- The state of the loop after some draws. -/
structure Generated (draws : List Draw) (state : TestData × UInt64) : Prop where
  spells : List.Forall₂ (fun d order => d.Spells tickers order) draws state.1.orders
  raws : state.1.rawAddOrders.map (fun raw => addOrder raw.bytes) =
    state.1.orders.map DecodedOrder.asAdd
  once : HandsOutOnce state.1.orders
  below : AllBelow state.1.orders state.2
  counter : state.2.toNat ≤ 1 + 2 * draws.length

/-- An iteration hands out one reference, and a second one for a Replace. -/
theorem Generated.generateOne {draws : List Draw} {state : TestData × UInt64}
    (h : Generated draws state) {d : Draw} (hfits : FitsArray (draws ++ [d])) :
    Generated (draws ++ [d]) (generateOne state d) := by
  have hcounter := h.counter
  have hlength : (draws ++ [d]).length = draws.length + 1 := List.length_append
  rw [FitsArray, hlength] at hfits
  have hone : (state.2 + 1).toNat = state.2.toNat + 1 := toNat_add_one (by omega)
  have htwo : (state.2 + 1 + 1).toNat = state.2.toNat + 2 := by
    rw [toNat_add_one (by omega), hone]
  have hlt : state.2 < state.2 + 1 := by
    rw [UInt64.lt_iff_toNat_lt, hone]
    omega
  have hlt' : state.2 + 1 < state.2 + 1 + 1 := by
    rw [UInt64.lt_iff_toNat_lt, htwo, hone]
    omega
  by_cases hreplace : d.type = .replace
  · simp only [Experiments.generateOne, hreplace, if_true]
    refine ⟨forall₂_snoc h.spells ⟨⟨rfl, rfl, rfl, rfl⟩, hreplace.symm⟩, ?_,
      h.once.snoc h.below rfl fun _ => hlt, h.below.snoc (UInt64.lt_trans hlt hlt')
        (UInt64.lt_trans hlt hlt') fun _ => hlt', ?_⟩
    · simp only [List.map_append, h.raws, List.map_cons, List.map_nil, Draw.addOrder_raw]
      rfl
    · rw [hlength, htwo]
      omega
  · simp only [Experiments.generateOne, hreplace, if_false]
    refine ⟨forall₂_snoc h.spells ⟨⟨rfl, rfl, rfl, rfl⟩, rfl⟩, ?_,
      h.once.snoc h.below rfl fun htype => absurd htype hreplace, h.below.snoc hlt hlt
        fun htype => absurd htype hreplace, ?_⟩
    · simp only [List.map_append, h.raws, List.map_cons, List.map_nil, Draw.addOrder_raw]
      rfl
    · rw [hlength, hone]
      omega

theorem generated (draws : List Draw) (hfits : FitsArray draws) :
    Generated draws (draws.foldl Experiments.generateOne ({}, 1)) := by
  induction draws using List.reverseRecOn with
  | nil =>
    exact ⟨.nil, rfl, handsOutOnce_nil, fun _ h => (by cases h), Nat.le_refl 1⟩
  | append_singleton draws d ih =>
    rw [List.foldl_append]
    exact (ih hfits.init).generateOne hfits

/-- The experiments work on one message for each draw, under references that are handed out once,
and every build decodes their raw records to the same messages as Adds. -/
theorem rawAddOrders_decoded (draws : List Draw) (hfits : FitsArray draws) :
    List.Forall₂ (fun d order => d.Spells tickers order) draws (generateTestData draws).orders ∧
    HandsOutOnce (generateTestData draws).orders ∧
    ∀ build, decodeAddOrdersSimd build
        ((generateTestData draws).rawAddOrders.flatMap AddOrderStruct.bytes)
        (generateTestData draws).rawAddOrders.length =
      some (draws.length, (generateTestData draws).orders.map DecodedOrder.asAdd) := by
  have h := generated draws hfits
  refine ⟨h.spells, h.once, fun build => ?_⟩
  have hlength : (generateTestData draws).rawAddOrders.length = draws.length := by
    have hraws := congrArg List.length h.raws
    rw [List.length_map, List.length_map, ← h.spells.length_eq] at hraws
    exact hraws
  rw [decodeAddOrdersSimd_structs, hlength]
  exact congrArg (fun orders => some (draws.length, orders)) h.raws

/-- The Replace takes two references. -/
theorem threeDraws_decoded :
    (generateTestData threeDraws).orders.map DecodedOrder.orderRef = [1, 2, 4] ∧
    ∀ build, decodeAddOrdersSimd build
        ((generateTestData threeDraws).rawAddOrders.flatMap AddOrderStruct.bytes)
        (generateTestData threeDraws).rawAddOrders.length =
      some (3, (generateTestData threeDraws).orders.map DecodedOrder.asAdd) :=
  ⟨by decide +kernel, (rawAddOrders_decoded threeDraws threeDraws_fit).2.2⟩

end Experiments

/-! ## The loops of the main program -/

namespace Main

/-- The raw records after some draws, as the decoder will read them. -/
structure Filled (draws : List Draw) (entries : List DecodedOrder) (next : UInt64) : Prop where
  fills : List.Forall₂ (fun d order => d.Fills tickers order) draws entries
  once : HandsOutOnce entries
  below : AllBelow entries next
  counter : next.toNat = 1 + draws.length

theorem filled (draws : List Draw) (hfits : FitsArray draws) :
    Filled draws ((rawMessages draws).1.map fun raw => addOrder raw.bytes) (rawMessages draws).2 := by
  induction draws using List.reverseRecOn with
  | nil => exact ⟨.nil, handsOutOnce_nil, fun _ h => (by cases h), rfl⟩
  | append_singleton draws d ih =>
    have h := ih hfits.init
    have hcounter := h.counter
    have hlength : (draws ++ [d]).length = draws.length + 1 := List.length_append
    rw [FitsArray, hlength] at hfits
    have hone : ((rawMessages draws).2 + 1).toNat = (rawMessages draws).2.toNat + 1 :=
      toNat_add_one (by omega)
    have hlt : (rawMessages draws).2 < (rawMessages draws).2 + 1 := by
      rw [UInt64.lt_iff_toNat_lt, hone]
      omega
    have hraws : rawMessages (draws ++ [d]) = fillRaw (rawMessages draws) d :=
      List.foldl_concat fillRaw ([], 1) d draws
    rw [hraws, fillRaw, List.map_append, List.map_cons, List.map_nil, Draw.addOrder_raw]
    refine ⟨forall₂_snoc h.fills ⟨rfl, rfl, rfl, rfl⟩, h.once.snoc h.below rfl
      fun htype => (by cases htype), h.below.snoc hlt hlt fun htype => (by cases htype), ?_⟩
    rw [hone, hlength]
    omega

/-- The entries after some iterations of the second loop, whose counter starts at `first`. -/
structure Assigned (first : UInt64) (entries : List (DecodedOrder × Draw))
    (state : List DecodedOrder × UInt64) : Prop where
  spells : List.Forall₂ (fun d order => d.Spells tickers order) (entries.map Prod.snd) state.1
  refs : state.1.map DecodedOrder.orderRef = entries.map fun entry => entry.1.orderRef
  news : ∀ order ∈ state.1, order.type = .replace →
    first ≤ order.newOrderRef ∧ order.newOrderRef < state.2
  distinct : state.1.Pairwise fun earlier later =>
    earlier.type = .replace → later.type = .replace → earlier.newOrderRef ≠ later.newOrderRef
  counter : first.toNat ≤ state.2.toNat ∧ state.2.toNat ≤ first.toNat + entries.length

/-- An iteration keeps the values of its entry and hands out a reference for a Replace. -/
theorem Assigned.assignType {first : UInt64} {entries : List (DecodedOrder × Draw)}
    {state : List DecodedOrder × UInt64} (h : Assigned first entries state)
    {entry : DecodedOrder × Draw} (hfills : entry.2.Fills tickers entry.1)
    (hroom : first.toNat + (entries ++ [entry]).length < 2 ^ 64) :
    Assigned first (entries ++ [entry]) (assignType state entry) := by
  obtain ⟨hlow, hhigh⟩ := h.counter
  have hlength : (entries ++ [entry]).length = entries.length + 1 := List.length_append
  rw [hlength] at hroom
  by_cases hreplace : entry.2.type = .replace
  · have hone : (state.2 + 1).toNat = state.2.toNat + 1 := toNat_add_one (by omega)
    have hlt : state.2 < state.2 + 1 := by
      rw [UInt64.lt_iff_toNat_lt, hone]
      omega
    simp only [Main.assignType, hreplace, if_true]
    refine ⟨?_, ?_, fun order horder htype => ?_, ?_, ?_, ?_⟩
    · rw [List.map_append]
      exact forall₂_snoc h.spells
        ⟨⟨hfills.tickerKey, hfills.price, hfills.shares, hfills.side⟩, hreplace.symm⟩
    · rw [List.map_append, List.map_append, h.refs]
      rfl
    · rcases List.mem_append.mp horder with hold | hlast
      · obtain ⟨hle, hbelow⟩ := h.news order hold htype
        exact ⟨hle, UInt64.lt_trans hbelow hlt⟩
      · rw [List.mem_singleton.mp hlast]
        exact ⟨UInt64.le_iff_toNat_le.mpr hlow, hlt⟩
    · refine List.pairwise_append.mpr
        ⟨h.distinct, List.pairwise_singleton _ _, fun o ho o' ho' htype _ => ?_⟩
      rw [List.mem_singleton.mp ho']
      exact UInt64.ne_of_lt (h.news o ho htype).2
    · rw [hone]
      omega
    · rw [hone, hlength]
      omega
  · simp only [Main.assignType, hreplace, if_false]
    refine ⟨?_, ?_, fun order horder htype => ?_, ?_, hlow, ?_⟩
    · rw [List.map_append]
      exact forall₂_snoc h.spells
        ⟨⟨hfills.tickerKey, hfills.price, hfills.shares, hfills.side⟩, rfl⟩
    · rw [List.map_append, List.map_append, h.refs]
      rfl
    · rcases List.mem_append.mp horder with hold | hlast
      · exact h.news order hold htype
      · rw [List.mem_singleton.mp hlast] at htype
        exact absurd htype hreplace
    · refine List.pairwise_append.mpr
        ⟨h.distinct, List.pairwise_singleton _ _, fun o ho o' ho' _ htype' => ?_⟩
      rw [List.mem_singleton.mp ho'] at htype'
      exact absurd htype' hreplace
    · rw [hlength]
      exact hhigh.trans (Nat.le_succ _)

theorem assigned (first : UInt64) (entries : List (DecodedOrder × Draw))
    (hfills : ∀ entry ∈ entries, entry.2.Fills tickers entry.1)
    (hroom : first.toNat + entries.length < 2 ^ 64) :
    Assigned first entries (entries.foldl assignType ([], first)) := by
  induction entries using List.reverseRecOn with
  | nil => exact ⟨.nil, rfl, fun _ h => (by cases h), .nil, Nat.le_refl _, Nat.le_refl _⟩
  | append_singleton entries entry ih =>
    have hlength : (entries ++ [entry]).length = entries.length + 1 := List.length_append
    rw [List.foldl_append]
    refine (ih (fun x hx => hfills x (List.mem_append_left _ hx)) (by omega)).assignType
      (hfills entry (List.mem_append_right _ (List.mem_singleton_self entry))) hroom

/-- The main program hands its pipeline one message for each draw, the same in every build of the
decoder, under references that are handed out once. -/
theorem decoded_spells (draws : List Draw) (hfits : FitsArray draws) :
    ∃ orders, (∀ build, decoded build draws = some orders) ∧
      List.Forall₂ (fun d order => d.Spells tickers order) draws orders ∧ HandsOutOnce orders := by
  have h := filled draws hfits
  have hlength := h.fills.length_eq
  have hlengthRaws : (rawMessages draws).1.length = draws.length := by
    rw [hlength, List.length_map]
  set entries := (rawMessages draws).1.map fun raw => addOrder raw.bytes with hentries
  have hzip : ∀ entry ∈ entries.zip draws, entry.2.Fills tickers entry.1 := fun entry hentry =>
    (List.forall₂_iff_zip.mp h.fills.flip).2 hentry
  have hassigned := assigned (rawMessages draws).2 (entries.zip draws) hzip (by
    rw [List.length_zip, ← hlength, Nat.min_self, h.counter]
    rw [FitsArray] at hfits
    omega)
  have hsnd : (entries.zip draws).map Prod.snd = draws := List.map_snd_zip (Nat.le_of_eq hlength)
  have hfst : ((entries.zip draws).map fun entry => entry.1.orderRef) =
      entries.map DecodedOrder.orderRef := by
    have hmap := congrArg (List.map DecodedOrder.orderRef)
      (List.map_fst_zip (Nat.le_of_eq hlength.symm))
    rwa [List.map_map] at hmap
  have hspells := hassigned.spells
  have hrefs := hassigned.refs
  rw [hsnd] at hspells
  rw [hfst] at hrefs
  refine ⟨_, fun build => ?_, hspells, ?_, fun order horder htype other hother => ?_,
    hassigned.distinct⟩
  · have hdecoded := decodeAddOrdersSimd_structs build (rawMessages draws).1
    rw [hlengthRaws] at hdecoded
    unfold decoded
    simp only [hdecoded, Option.bind_eq_bind, Option.bind_some]
    rw [← hentries, List.take_of_length_le (Nat.le_of_eq hlength.symm)]
    rfl
  · have hascending := h.once.ascending
    rw [← List.pairwise_map (f := DecodedOrder.orderRef) (R := (· < ·)), ← hrefs,
      List.pairwise_map] at hascending
    exact hascending
  · have hmem : other.orderRef ∈ entries.map DecodedOrder.orderRef := by
      rw [← hrefs]
      exact List.mem_map_of_mem hother
    obtain ⟨entry, hentry, href⟩ := List.mem_map.mp hmem
    rw [← href]
    exact UInt64.ne_of_lt (UInt64.lt_of_lt_of_le (h.below entry hentry).1
      (hassigned.news order horder htype).1)

end Main

end NanoRing
