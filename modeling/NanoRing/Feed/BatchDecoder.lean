import NanoRing.Common.BlockLoop
import NanoRing.Common.VectorIntrinsics
import NanoRing.Feed.FeedFraming

/-!
# Batch decoding of Add messages

`decodeAddOrdersSimd` decodes an array of packed `ItchAddOrder` records. Each build has its
own loop over blocks of four, except the scalar build, which has none, and the same loop over
the records that are left. The records are read out of the bytes of the array with the checked
reads of the stream decoder, and the entries written so far are a list whose length is `out_idx`.
-/

namespace NanoRing

/-- The three builds that the preprocessor selects from. -/
inductive SimdBuild
  | neon
  | avx2
  | scalar
deriving DecidableEq

namespace SimdDecoder

open BlockLoop VectorIntrinsics

/-- The address of a record in the array. -/
def msgAt (i : ℕ) : ℕ := itchAddOrderSize * i

/-- The entry of lane `j` is appended to the output. -/
def storeLane (msgs : List UInt8) (i : ℕ) (tickerArr : Vector UInt64 4)
    (priceArr sharesArr : Vector UInt32 4) (j : ℕ) (output : List DecodedOrder) :
    Option (List DecodedOrder) := do
  let side ← msgs[msgAt (i + j) + ItchAddOrder.buySellIndicator]?
  let price ← priceArr[j]?
  let shares ← sharesArr[j]?
  let tickerKey ← tickerArr[j]?
  let orderRef ← loadU64Unaligned msgs (msgAt (i + j) + ItchAddOrder.orderRefNum)
  return output ++ [{
    type := .add
    orderRef := orderRef
    tickerKey := tickerKey
    price := price
    shares := shares
    side := side
    newOrderRef := 0 }]

/-- The entries of the four lanes, in order. -/
def storeLanes (msgs : List UInt8) (i : ℕ) (tickerArr : Vector UInt64 4)
    (priceArr sharesArr : Vector UInt32 4) (output : List DecodedOrder) :
    Option (List DecodedOrder) := do
  let (_, output) ← forBlocks 1 4 (storeLane msgs i tickerArr priceArr sharesArr) 0 output
  return output

/-- Four records with NEON. -/
def decodeBlockNeon (msgs : List UInt8) (i : ℕ) (output : List DecodedOrder) :
    Option (List DecodedOrder) := do
  let tickers01 := vcombineU64
    (vcreateU64 (← loadTicker msgs (msgAt i + ItchAddOrder.stock)))
    (vcreateU64 (← loadTicker msgs (msgAt (i + 1) + ItchAddOrder.stock)))
  let tickers23 := vcombineU64
    (vcreateU64 (← loadTicker msgs (msgAt (i + 2) + ItchAddOrder.stock)))
    (vcreateU64 (← loadTicker msgs (msgAt (i + 3) + ItchAddOrder.stock)))
  let pricesRaw := #v[
    ← loadU32Be msgs (msgAt i + ItchAddOrder.price),
    ← loadU32Be msgs (msgAt (i + 1) + ItchAddOrder.price),
    ← loadU32Be msgs (msgAt (i + 2) + ItchAddOrder.price),
    ← loadU32Be msgs (msgAt (i + 3) + ItchAddOrder.price)]
  let prices := vreinterpretqU32U8 (vrev32qU8 (vreinterpretqU8U32 pricesRaw))
  let sharesRaw := #v[
    ← loadU32Be msgs (msgAt i + ItchAddOrder.shares),
    ← loadU32Be msgs (msgAt (i + 1) + ItchAddOrder.shares),
    ← loadU32Be msgs (msgAt (i + 2) + ItchAddOrder.shares),
    ← loadU32Be msgs (msgAt (i + 3) + ItchAddOrder.shares)]
  let shares := vreinterpretqU32U8 (vrev32qU8 (vreinterpretqU8U32 sharesRaw))
  storeLanes msgs i (tickers01 ++ tickers23) prices shares output

/-- The byte shuffle that swaps every 32-bit word. -/
def bswapMask : M128i := mmSetEpi8 12 13 14 15 8 9 10 11 4 5 6 7 0 1 2 3

/-- Four records with AVX2. -/
def decodeBlockAvx2 (msgs : List UInt8) (i : ℕ) (output : List DecodedOrder) :
    Option (List DecodedOrder) := do
  let tickers := mm256SetEpi64x
    (← loadTicker msgs (msgAt (i + 3) + ItchAddOrder.stock))
    (← loadTicker msgs (msgAt (i + 2) + ItchAddOrder.stock))
    (← loadTicker msgs (msgAt (i + 1) + ItchAddOrder.stock))
    (← loadTicker msgs (msgAt i + ItchAddOrder.stock))
  let pricesRaw := mmSetEpi32
    (← loadU32Be msgs (msgAt (i + 3) + ItchAddOrder.price))
    (← loadU32Be msgs (msgAt (i + 2) + ItchAddOrder.price))
    (← loadU32Be msgs (msgAt (i + 1) + ItchAddOrder.price))
    (← loadU32Be msgs (msgAt i + ItchAddOrder.price))
  let prices := mmShuffleEpi8 pricesRaw bswapMask
  let sharesRaw := mmSetEpi32
    (← loadU32Be msgs (msgAt (i + 3) + ItchAddOrder.shares))
    (← loadU32Be msgs (msgAt (i + 2) + ItchAddOrder.shares))
    (← loadU32Be msgs (msgAt (i + 1) + ItchAddOrder.shares))
    (← loadU32Be msgs (msgAt i + ItchAddOrder.shares))
  let shares := mmShuffleEpi8 sharesRaw bswapMask
  storeLanes msgs i (mm256StoreSi256 tickers) (mmStoreSi128 prices) (mmStoreSi128 shares) output

/-- One record of the scalar tail. -/
def decodeOne (msgs : List UInt8) (i : ℕ) (output : List DecodedOrder) :
    Option (List DecodedOrder) := do
  let side ← msgs[msgAt i + ItchAddOrder.buySellIndicator]?
  let tickerKey ← loadTicker msgs (msgAt i + ItchAddOrder.stock)
  let orderRef ← loadU64Unaligned msgs (msgAt i + ItchAddOrder.orderRefNum)
  let price ← loadU32Be msgs (msgAt i + ItchAddOrder.price)
  let shares ← loadU32Be msgs (msgAt i + ItchAddOrder.shares)
  return output ++ [{
    type := .add
    orderRef := orderRef
    tickerKey := tickerKey
    price := swap32 price
    shares := swap32 shares
    side := side
    newOrderRef := 0 }]

/-- The number of decoded records and the records, with `out_idx` zero and the output empty
at the start. -/
def decodeAddOrdersSimd (build : SimdBuild) (msgs : List UInt8) (n : ℕ) :
    Option (ℕ × List DecodedOrder) := do
  let (i, output) ← match build with
    | .neon => forBlocks 4 n (decodeBlockNeon msgs) 0 []
    | .avx2 => forBlocks 4 n (decodeBlockAvx2 msgs) 0 []
    | .scalar => some (0, [])
  let (_, output) ← forBlocks 1 n (decodeOne msgs) i output
  return (output.length, output)

end SimdDecoder

namespace Feed

open ByteOrder BlockLoop VectorLanes VectorIntrinsics SimdDecoder

/-- The bytes of a record in the array. -/
def recordBytes (msgs : List UInt8) (i : ℕ) : List UInt8 := field msgs (msgAt i) itchAddOrderSize

/-- The orders that the first `i` records spell. -/
def firstOrders (msgs : List UInt8) (i : ℕ) : List DecodedOrder :=
  (List.range i).map fun k => addOrder (recordBytes msgs k)

theorem firstOrders_succ (msgs : List UInt8) (i : ℕ) :
    firstOrders msgs (i + 1) = firstOrders msgs i ++ [addOrder (recordBytes msgs i)] := by
  rw [firstOrders, List.range_succ, List.map_append]
  rfl

/-! ## Reads of one record -/

section Record

variable {msgs : List UInt8} {n i : ℕ}

theorem record_in_array (hlength : msgs.length = itchAddOrderSize * n) (hi : i < n) :
    msgAt i + itchAddOrderSize ≤ msgs.length := by
  rw [hlength, msgAt, ← Nat.mul_succ]
  exact Nat.mul_le_mul_left _ hi

theorem length_recordBytes (h : msgAt i + itchAddOrderSize ≤ msgs.length) :
    (recordBytes msgs i).length = itchAddOrderSize := length_field h

/-- The array around one of its records. -/
theorem exists_around (h : msgAt i + itchAddOrderSize ≤ msgs.length) :
    ∃ before after, msgs = before ++ (recordBytes msgs i ++ after) ∧ before.length = msgAt i := by
  refine ⟨msgs.take (msgAt i), (msgs.drop (msgAt i)).drop itchAddOrderSize, ?_,
    List.length_take_of_le (by omega)⟩
  rw [recordBytes, field, List.take_append_drop, List.take_append_drop]

/-- A read inside a record reads its field. -/
theorem readBytes_record (h : msgAt i + itchAddOrderSize ≤ msgs.length) {offset n : ℕ}
    (hfield : offset + n ≤ itchAddOrderSize) :
    readBytes msgs (msgAt i + offset) n = some (field (recordBytes msgs i) offset n) := by
  obtain ⟨before, after, hmsgs, hbefore⟩ := exists_around h
  have hread : readBytes (before ++ (recordBytes msgs i ++ after)) (before.length + offset) n =
      some (field (recordBytes msgs i) offset n) :=
    readBytes_window (by rwa [length_recordBytes h])
  rwa [← hmsgs, hbefore] at hread

theorem loadTicker_record (h : msgAt i + itchAddOrderSize ≤ msgs.length) :
    loadTicker msgs (msgAt i + ItchAddOrder.stock) =
      some (addOrder (recordBytes msgs i)).tickerKey := by
  rw [loadTicker, readBytes_record h (by decide)]
  rfl

theorem loadU64Unaligned_record (h : msgAt i + itchAddOrderSize ≤ msgs.length) :
    loadU64Unaligned msgs (msgAt i + ItchAddOrder.orderRefNum) =
      some (addOrder (recordBytes msgs i)).orderRef := by
  rw [loadU64Unaligned, readBytes_record h (by decide)]
  rfl

theorem side_record (h : msgAt i + itchAddOrderSize ≤ msgs.length) :
    msgs[msgAt i + ItchAddOrder.buySellIndicator]? = some (addOrder (recordBytes msgs i)).side := by
  obtain ⟨before, after, hmsgs, hbefore⟩ := exists_around h
  have hinside : ItchAddOrder.buySellIndicator < (recordBytes msgs i).length := by
    rw [length_recordBytes h]
    decide
  have hread : (before ++ (recordBytes msgs i ++ after))[before.length +
      ItchAddOrder.buySellIndicator]? = (recordBytes msgs i)[ItchAddOrder.buySellIndicator]? :=
    getElem?_window hinside
  rw [← hmsgs, hbefore] at hread
  rw [hread, List.getElem?_eq_getElem hinside]
  exact congrArg some (List.getElem_eq_getD 0)

/-- The four bytes of a field in host order. -/
def hostField (msgs : List UInt8) (i offset : ℕ) : UInt32 :=
  .ofNat (little (field (recordBytes msgs i) offset 4))

theorem loadU32Be_record (h : msgAt i + itchAddOrderSize ≤ msgs.length) {offset : ℕ}
    (hfield : offset + 4 ≤ itchAddOrderSize) :
    loadU32Be msgs (msgAt i + offset) = some (hostField msgs i offset) := by
  rw [loadU32Be, readBytes_record h hfield]
  rfl

theorem price_inside : ItchAddOrder.price + 4 ≤ itchAddOrderSize := by decide

theorem shares_inside : ItchAddOrder.shares + 4 ≤ itchAddOrderSize := by decide

theorem swap32_price (h : msgAt i + itchAddOrderSize ≤ msgs.length) :
    swap32 (hostField msgs i ItchAddOrder.price) = (addOrder (recordBytes msgs i)).price :=
  swap32_field _ _ (by rw [length_recordBytes h]; decide)

theorem swap32_shares (h : msgAt i + itchAddOrderSize ≤ msgs.length) :
    swap32 (hostField msgs i ItchAddOrder.shares) = (addOrder (recordBytes msgs i)).shares :=
  swap32_field _ _ (by rw [length_recordBytes h]; decide)

end Record

/-! ## Blocks of four -/

section Blocks

variable {msgs : List UInt8} {n i : ℕ}

/-- The shuffle mask reverses the bytes of every word. -/
theorem mmShuffleEpi8_bswapMask (a : M128i) : mmShuffleEpi8 a bswapMask = vrev32qU8 a := by
  have hmask : ∀ i : Fin (4 * 4), ¬ 128 ≤ bswapMask[i] ∧
      bswapMask[i].toNat % 16 = (finProdFinEquiv (i.divNat, i.modNat.rev)).val := by decide
  apply Vector.ext
  intro i hi
  obtain ⟨htop, hindex⟩ := hmask ⟨i, hi⟩
  have hreverse := @getElem_reverseLanes 4 4 a ⟨i, hi⟩
  simp only [Fin.getElem_fin] at htop hindex hreverse
  simp only [mmShuffleEpi8, Vector.getElem_map, if_neg htop, hindex, vrev32qU8]
  exact hreverse.symm

theorem swapBytes_eq_swap32 (x : UInt32) : swapBytes x = swap32 x := swapBytes_uint32 x

/-- The lanes hold these values of the records at `i`. -/
def Holds {α : Type} (r : Vector α 4) (value : DecodedOrder → α) (msgs : List UInt8) (i : ℕ) : Prop :=
  ∀ j (hj : j < 4), r[j] = value (addOrder (recordBytes msgs (i + j)))

/-- Four values that are given one by one. -/
theorem getElem_four {α : Type} (f : ℕ → α) (i : ℕ) :
    ∀ j (hj : j < 4), #v[f i, f (i + 1), f (i + 2), f (i + 3)][j] = f (i + j)
  | 0, _ => rfl
  | 1, _ => rfl
  | 2, _ => rfl
  | 3, _ => rfl

/-- Lanes that hold the values of four records write their orders. -/
theorem storeLanes_of_holds (hblock : ∀ j < 4, msgAt (i + j) + itchAddOrderSize ≤ msgs.length)
    {tickerArr : Vector UInt64 4} {priceArr sharesArr : Vector UInt32 4}
    (hticker : Holds tickerArr (·.tickerKey) msgs i) (hprice : Holds priceArr (·.price) msgs i)
    (hshares : Holds sharesArr (·.shares) msgs i) :
    storeLanes msgs i tickerArr priceArr sharesArr (firstOrders msgs i) =
      some (firstOrders msgs (i + 4)) := by
  have hlane : ∀ j < 4, storeLane msgs i tickerArr priceArr sharesArr j (firstOrders msgs (i + j)) =
      some (firstOrders msgs (i + (j + 1))) := by
    intro j hj
    have hrecord := hblock j hj
    rw [storeLane, side_record hrecord, loadU64Unaligned_record hrecord,
      Vector.getElem?_eq_getElem hj, Vector.getElem?_eq_getElem hj, Vector.getElem?_eq_getElem hj,
      hticker j hj, hprice j hj, hshares j hj, ← Nat.add_assoc, firstOrders_succ]
    rfl
  have hloop := forBlocks_one_eq (fun j => firstOrders msgs (i + j)) (Nat.zero_le 4) fun j _ => hlane j
  rw [Nat.add_zero] at hloop
  rw [storeLanes, hloop]
  rfl

/-- The host words of a field of four records. -/
def hostFields (msgs : List UInt8) (i offset : ℕ) : Vector UInt32 4 :=
  #v[hostField msgs i offset, hostField msgs (i + 1) offset, hostField msgs (i + 2) offset,
    hostField msgs (i + 3) offset]

/-- The keys of four records. -/
def tickerKeys (msgs : List UInt8) (i : ℕ) : Vector UInt64 4 :=
  #v[(addOrder (recordBytes msgs i)).tickerKey, (addOrder (recordBytes msgs (i + 1))).tickerKey,
    (addOrder (recordBytes msgs (i + 2))).tickerKey, (addOrder (recordBytes msgs (i + 3))).tickerKey]

theorem holds_tickerKeys (msgs : List UInt8) (i : ℕ) :
    Holds (tickerKeys msgs i) (·.tickerKey) msgs i :=
  getElem_four (fun k => (addOrder (recordBytes msgs k)).tickerKey) i

/-- Swapped host words hold the values that the swap of each of them gives. -/
theorem holds_swapped {offset : ℕ} {value : DecodedOrder → UInt32}
    (hvalue : ∀ j < 4,
      swap32 (hostField msgs (i + j) offset) = value (addOrder (recordBytes msgs (i + j)))) :
    Holds ((hostFields msgs i offset).map swapBytes) value msgs i := by
  intro j hj
  have hword := getElem_four (fun k => hostField msgs k offset) i j hj
  rw [Vector.getElem_map, hostFields, hword, swapBytes_eq_swap32, hvalue j hj]

/-- The lanes that both vector builds store, the words with their bytes reversed. -/
theorem storeLanes_reversed (hblock : ∀ j < 4, msgAt (i + j) + itchAddOrderSize ≤ msgs.length) :
    storeLanes msgs i (tickerKeys msgs i)
        (vreinterpretqU32U8 (vrev32qU8 (vreinterpretqU8U32 (hostFields msgs i ItchAddOrder.price))))
        (vreinterpretqU32U8 (vrev32qU8 (vreinterpretqU8U32 (hostFields msgs i ItchAddOrder.shares))))
        (firstOrders msgs i) = some (firstOrders msgs (i + 4)) := by
  rw [vrev32qU8_lanes, vrev32qU8_lanes]
  exact storeLanes_of_holds hblock (holds_tickerKeys msgs i)
    (holds_swapped fun j hj => swap32_price (hblock j hj))
    (holds_swapped fun j hj => swap32_shares (hblock j hj))

theorem decodeBlockNeon_spec (hblock : ∀ j < 4, msgAt (i + j) + itchAddOrderSize ≤ msgs.length) :
    decodeBlockNeon msgs i (firstOrders msgs i) = some (firstOrders msgs (i + 4)) := by
  have h0 := hblock 0 (by decide)
  have h1 := hblock 1 (by decide)
  have h2 := hblock 2 (by decide)
  have h3 := hblock 3 (by decide)
  rw [Nat.add_zero] at h0
  simp only [decodeBlockNeon, loadTicker_record h0, loadTicker_record h1, loadTicker_record h2,
    loadTicker_record h3, loadU32Be_record h0 price_inside, loadU32Be_record h1 price_inside,
    loadU32Be_record h2 price_inside, loadU32Be_record h3 price_inside,
    loadU32Be_record h0 shares_inside, loadU32Be_record h1 shares_inside,
    loadU32Be_record h2 shares_inside, loadU32Be_record h3 shares_inside, Option.bind_eq_bind,
    Option.bind_some]
  exact storeLanes_reversed hblock

theorem decodeBlockAvx2_spec (hblock : ∀ j < 4, msgAt (i + j) + itchAddOrderSize ≤ msgs.length) :
    decodeBlockAvx2 msgs i (firstOrders msgs i) = some (firstOrders msgs (i + 4)) := by
  have h0 := hblock 0 (by decide)
  have h1 := hblock 1 (by decide)
  have h2 := hblock 2 (by decide)
  have h3 := hblock 3 (by decide)
  rw [Nat.add_zero] at h0
  simp only [decodeBlockAvx2, loadTicker_record h0, loadTicker_record h1, loadTicker_record h2,
    loadTicker_record h3, loadU32Be_record h0 price_inside, loadU32Be_record h1 price_inside,
    loadU32Be_record h2 price_inside, loadU32Be_record h3 price_inside,
    loadU32Be_record h0 shares_inside, loadU32Be_record h1 shares_inside,
    loadU32Be_record h2 shares_inside, loadU32Be_record h3 shares_inside, Option.bind_eq_bind,
    Option.bind_some, mm256StoreSi256_set, mmShuffleEpi8_bswapMask]
  exact storeLanes_reversed hblock

theorem decodeOne_spec (h : msgAt i + itchAddOrderSize ≤ msgs.length) :
    decodeOne msgs i (firstOrders msgs i) = some (firstOrders msgs (i + 1)) := by
  rw [decodeOne, side_record h, loadTicker_record h, loadU64Unaligned_record h,
    loadU32Be_record h price_inside, loadU32Be_record h shares_inside, firstOrders_succ]
  simp only [Option.bind_eq_bind, Option.bind_some, swap32_price h, swap32_shares h]
  rfl

end Blocks

/-! ## Whole arrays -/

/-- Every build decodes every record of the array. -/
theorem decodeAddOrdersSimd_eq (build : SimdBuild) {msgs : List UInt8} {n : ℕ}
    (hlength : msgs.length = itchAddOrderSize * n) :
    decodeAddOrdersSimd build msgs n = some (n, firstOrders msgs n) := by
  have hblock : ∀ i, i + 4 ≤ n → ∀ j < 4, msgAt (i + j) + itchAddOrderSize ≤ msgs.length :=
    fun i hi j hj => record_in_array hlength (by omega)
  have hone : ∀ i < n, decodeOne msgs i (firstOrders msgs i) = some (firstOrders msgs (i + 1)) :=
    fun i hi => decodeOne_spec (record_in_array hlength hi)
  have htail : ∀ i ≤ n, forBlocks 1 n (decodeOne msgs) i (firstOrders msgs i) =
      some (n, firstOrders msgs n) := fun i hi => forBlocks_one_eq (firstOrders msgs) hi fun k _ => hone k
  have hneon : forBlocks 4 n (decodeBlockNeon msgs) 0 (firstOrders msgs 0) =
      some (blocksEnd 4 n, firstOrders msgs (blocksEnd 4 n)) :=
    forBlocks_zero_eq (firstOrders msgs) (by decide) fun i _ hi => decodeBlockNeon_spec (hblock i hi)
  have havx2 : forBlocks 4 n (decodeBlockAvx2 msgs) 0 (firstOrders msgs 0) =
      some (blocksEnd 4 n, firstOrders msgs (blocksEnd 4 n)) :=
    forBlocks_zero_eq (firstOrders msgs) (by decide) fun i _ hi => decodeBlockAvx2_spec (hblock i hi)
  have hempty : firstOrders msgs 0 = [] := rfl
  rw [hempty] at hneon havx2
  have hcount : (firstOrders msgs n).length = n := by
    rw [firstOrders, List.length_map, List.length_range]
  unfold decodeAddOrdersSimd
  cases build with
  | neon =>
    simp only [hneon, Option.bind_eq_bind, Option.bind_some, htail _ (blocksEnd_le 4 n), hcount]
    rfl
  | avx2 =>
    simp only [havx2, Option.bind_eq_bind, Option.bind_some, htail _ (blocksEnd_le 4 n), hcount]
    rfl
  | scalar =>
    have hscalar := htail 0 (Nat.zero_le n)
    rw [hempty] at hscalar
    simp only [Option.bind_eq_bind, Option.bind_some, hscalar, hcount]
    rfl

/-- A packed record. -/
abbrev AddRecord := { bytes : List UInt8 // bytes.length = itchAddOrderSize }

/-- Records one behind the other. -/
def arrayBytes (records : List AddRecord) : List UInt8 := records.flatMap (·.1)

theorem length_arrayBytes (records : List AddRecord) :
    (arrayBytes records).length = itchAddOrderSize * records.length := by
  induction records with
  | nil => rfl
  | cons record records ih =>
    rw [arrayBytes, List.flatMap_cons, List.length_append, record.2, ← arrayBytes, ih,
      List.length_cons, Nat.mul_succ, Nat.add_comm]

theorem recordBytes_zero (record : AddRecord) (records : List AddRecord) :
    recordBytes (arrayBytes (record :: records)) 0 = record.1 := by
  rw [recordBytes, field, arrayBytes, List.flatMap_cons, msgAt, Nat.mul_zero, List.drop_zero,
    List.take_left' record.2]

theorem recordBytes_succ (record : AddRecord) (records : List AddRecord) (i : ℕ) :
    recordBytes (arrayBytes (record :: records)) (i + 1) = recordBytes (arrayBytes records) i := by
  have haddress : msgAt (i + 1) = record.1.length + msgAt i := by
    rw [msgAt, Nat.mul_succ, record.2, Nat.add_comm, msgAt]
  rw [recordBytes, field, haddress, arrayBytes, List.flatMap_cons, List.drop_length_add_append,
    ← arrayBytes, recordBytes, field]

/-- The orders that an array spells are those of its records. -/
theorem firstOrders_arrayBytes (records : List AddRecord) :
    firstOrders (arrayBytes records) records.length = records.map fun record => addOrder record.1 := by
  induction records with
  | nil => rfl
  | cons record records ih =>
    rw [firstOrders, List.length_cons, List.range_succ_eq_map, List.map_cons, List.map_map,
      recordBytes_zero, List.map_cons, ← ih, firstOrders]
    simp only [Function.comp_def, recordBytes_succ]

/-- The handler of the stream decoder decodes a record on its own. -/
theorem decodeAddOrder_record (record : AddRecord) :
    decodeAddOrder record.1 0 = some (addOrder record.1) := by
  have hwindow : decodeAddOrder ([] ++ (record.1 ++ [])) ([] : List UInt8).length =
      some (addOrder record.1) := decodeAddOrder_window (Nat.le_of_eq record.2.symm)
  rwa [List.nil_append, List.append_nil] at hwindow

/-- For every array of records the three builds return the number of records and write the
orders that the stream decoder's handler produces from them, in input order. -/
theorem decodeAddOrdersSimd_eq_decodeAddOrder (records : List AddRecord) :
    ∃ orders, (∀ build, decodeAddOrdersSimd build (arrayBytes records) records.length =
        some (records.length, orders)) ∧
      List.Forall₂ (fun record order => decodeAddOrder record.1 0 = some order) records orders := by
  refine ⟨records.map fun record => addOrder record.1, fun build => ?_, ?_⟩
  · rw [decodeAddOrdersSimd_eq build (length_arrayBytes records), firstOrders_arrayBytes]
  · rw [List.forall₂_map_right_iff, List.forall₂_same]
    exact fun record _ => decodeAddOrder_record record

end Feed

end NanoRing
