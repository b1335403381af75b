import NanoRing.Feed.ItchRoundTrip

/-!
# The feed generator

The generator writes packed Add records to its file, each field in the byte order that the
decoder expects, and no length in front of them. A record on its own spells its message, and
behind a length prefix it would be decoded as such. Without prefixes a file of one record or more
is too short to hold as many frames.
-/

namespace NanoRing

open ByteOrder Framing SimdDecoder

/-- What one iteration of the generator chooses. -/
structure GeneratedAdd where
  stock : ItchStock
  price : UInt32
  orderRef : UInt64
deriving DecidableEq

/-- The packed structure in memory. -/
structure AddOrderStruct where
  messageType : UInt8
  stockLocate : UInt16
  trackingNumber : UInt16
  timestamp : BitVec 48
  orderRefNum : UInt64
  buySellIndicator : UInt8
  shares : UInt32
  stock : ItchStock
  price : UInt32

namespace AddOrderStruct

/-- Its bytes on a little-endian host. -/
def bytes (msg : AddOrderStruct) : List UInt8 :=
  msg.messageType :: (littleBytes 2 msg.stockLocate.toNat ++
    (littleBytes 2 msg.trackingNumber.toNat ++ (littleBytes 6 msg.timestamp.toNat ++
      (littleBytes 8 msg.orderRefNum.toNat ++ ([msg.buySellIndicator] ++
        (littleBytes 4 msg.shares.toNat ++ (msg.stock.1 ++ littleBytes 4 msg.price.toNat)))))))

theorem length_bytes (msg : AddOrderStruct) : msg.bytes.length = itchAddOrderSize := by
  simp [bytes, msg.stock.2, itchAddOrderSize]

end AddOrderStruct

namespace Generator

/-- The structure before the first iteration. -/
def initial : AddOrderStruct where
  messageType := typeAdd
  stockLocate := 0
  trackingNumber := 0
  timestamp := 0
  orderRefNum := 0
  buySellIndicator := sideBuy
  shares := swap32 100
  stock := ⟨[0, 0, 0, 0, 0, 0, 0, 0], rfl⟩
  price := 0

/-- The structure with the fields that an iteration overwrites. -/
def fill (msg : AddOrderStruct) (m : GeneratedAdd) : AddOrderStruct :=
  { msg with stock := m.stock, price := swap32 m.price, orderRefNum := m.orderRef }

/-- One iteration appends the bytes of the structure to the file. -/
def step (state : AddOrderStruct × List UInt8) (m : GeneratedAdd) : AddOrderStruct × List UInt8 :=
  let msg := fill state.1 m
  (msg, state.2 ++ msg.bytes)

/-- The file that the generator writes. -/
def generate (messages : List GeneratedAdd) : List UInt8 :=
  (messages.foldl step (initial, [])).2

/-- The record of a message. -/
def record (m : GeneratedAdd) : List UInt8 := (fill initial m).bytes

/-- An iteration overwrites every field that an earlier one has set. -/
theorem fill_fill (msg : AddOrderStruct) (m m' : GeneratedAdd) :
    fill (fill msg m) m' = fill msg m' := rfl

theorem foldl_step (messages : List GeneratedAdd) (m : Option GeneratedAdd) (file : List UInt8) :
    (messages.foldl step (m.elim initial (fill initial), file)).2 =
      file ++ messages.flatMap record := by
  induction messages generalizing m file with
  | nil => rw [List.foldl_nil, List.flatMap_nil, List.append_nil]
  | cons m' messages ih =>
    have hmsg : fill (m.elim initial (fill initial)) m' = fill initial m' := by
      cases m with
      | none => rfl
      | some m => exact fill_fill initial m m'
    have hrest := ih (some m') (file ++ record m')
    rw [List.foldl_cons, step, hmsg, List.flatMap_cons, ← List.append_assoc]
    exact hrest

/-- The file is the records one behind the other. -/
theorem generate_eq (messages : List GeneratedAdd) : generate messages = messages.flatMap record :=
  foldl_step messages none []

theorem length_record (m : GeneratedAdd) : (record m).length = itchAddOrderSize :=
  AddOrderStruct.length_bytes _

theorem length_generate (messages : List GeneratedAdd) :
    (generate messages).length = itchAddOrderSize * messages.length := by
  rw [generate_eq]
  induction messages with
  | nil => rfl
  | cons m messages ih =>
    rw [List.flatMap_cons, List.length_append, length_record, ih, List.length_cons, Nat.mul_succ,
      Nat.add_comm]

end Generator

namespace GeneratedAdd

/-- An Add order has the values of a message. -/
structure Agrees (m : GeneratedAdd) (order : DecodedOrder) : Prop where
  type : order.type = .add
  tickerKey : order.tickerKey = .ofNat (little m.stock.1)
  price : order.price = m.price
  shares : order.shares = 100
  side : order.side = sideBuy
  orderRef : order.orderRef = m.orderRef

/-- The decoder returns one Add order for each generated message, with its values. -/
def RoundTrips (messages : List GeneratedAdd) (maxOutput : ℕ) : Prop :=
  ∃ orders, decodeStream (Generator.generate messages) maxOutput = some orders ∧
    List.Forall₂ Agrees messages orders

end GeneratedAdd

namespace Feed

open Generator

/-! ## One record -/

/-- The ITCH message that a record encodes: its reference has the bytes of the generated one in
the opposite order. -/
def itchMessage (m : GeneratedAdd) : ItchMessage :=
  .add ⟨0, 0, 0⟩ (loadedRef m.orderRef) sideBuy 100 m.stock m.price

/-- A swapped field in memory has its bytes in network order. -/
theorem littleBytes_swap32 (v : UInt32) : littleBytes 4 (swap32 v).toNat = bigBytes 4 v.toNat := by
  have hlt : swap 4 v.toNat < 2 ^ 32 := swap_lt 4 v.toNat
  rw [swap32, UInt32.toNat_ofNat_of_lt' hlt, littleBytes_swap]

theorem toNat_loadedRef (ref : UInt64) : (loadedRef ref).toNat = swap 8 ref.toNat :=
  UInt64.toNat_ofNat_of_lt' (swap_lt 8 ref.toNat)

/-- The bytes of a reference are loaded back from their reverse. -/
theorem loadedRef_loadedRef (ref : UInt64) : loadedRef (loadedRef ref) = ref := by
  have hlt : ref.toNat < 256 ^ 8 := ref.toNat_lt
  rw [loadedRef, toNat_loadedRef, ← little_bigBytes, bigBytes_swap, little_littleBytes hlt,
    UInt64.ofNat_toNat]

/-- A record is the payload of an ITCH message. -/
theorem record_eq_encode (m : GeneratedAdd) : record m = (itchMessage m).encode := by
  have hheader : (⟨0, 0, 0⟩ : ItchHeader).encode =
      littleBytes 2 0 ++ (littleBytes 2 0 ++ littleBytes 6 0) := rfl
  have hrecord : record m = typeAdd :: (littleBytes 2 0 ++ (littleBytes 2 0 ++ (littleBytes 6 0 ++
      (littleBytes 8 m.orderRef.toNat ++ ([sideBuy] ++ (littleBytes 4 (swap32 100).toNat ++
        (m.stock.1 ++ littleBytes 4 (swap32 m.price).toNat))))))) := rfl
  rw [hrecord, itchMessage, ItchMessage.encode, hheader, toNat_loadedRef, bigBytes_swap,
    littleBytes_swap32, littleBytes_swap32, List.append_assoc, List.append_assoc]

/-- The order that a record is decoded as has the values of its message. -/
theorem agrees_decoded (m : GeneratedAdd) : m.Agrees (itchMessage m).decoded :=
  ⟨rfl, rfl, rfl, rfl, rfl, loadedRef_loadedRef m.orderRef⟩

/-- Behind length prefixes the records are decoded to orders with the values of their messages. -/
theorem decodeStream_framed_records (messages : List GeneratedAdd) (spare : ℕ) :
    ∃ orders, decodeStream (messages.flatMap fun m => frame (record m)) (messages.length + spare) =
        some orders ∧ List.Forall₂ GeneratedAdd.Agrees messages orders := by
  have hstream : (messages.flatMap fun m => frame (record m)) =
      ItchMessage.encodeStream (messages.map itchMessage) := by
    rw [ItchMessage.encodeStream, List.flatMap_map]
    simp only [record_eq_encode]
  refine ⟨messages.map fun m => (itchMessage m).decoded, ?_, ?_⟩
  · rw [hstream, decodeStream_encodeStream, List.map_map, List.take_of_length_le]
    · rfl
    · rw [List.length_map]
      exact Nat.le_add_right _ _
  · rw [List.forall₂_map_right_iff, List.forall₂_same]
    exact fun m _ => agrees_decoded m

/-! ## Room for frames -/

/-- Only a payload with room for a record spells an Add order. -/
theorem length_of_orderOf_add {payload : List UInt8} {order : DecodedOrder}
    (horder : orderOf payload = some order) (htype : order.type = .add) : 36 ≤ payload.length := by
  unfold orderOf at horder
  repeat' split at horder
  all_goals first
    | contradiction
    | (cases horder; first | assumption | cases htype)

/-- Frames that spell Add orders take 38 bytes for each of them. -/
theorem length_frames_of_adds (frames : List (List UInt8)) :
    38 * (frames.filterMap orderOf).countP (fun order => order.type = .add) ≤
      (frames.flatMap frame).length := by
  induction frames with
  | nil => exact Nat.le_refl 0
  | cons payload frames ih =>
    rw [List.flatMap_cons, List.length_append, length_frame]
    cases horder : orderOf payload with
    | none =>
      rw [List.filterMap_cons_none horder]
      omega
    | some order =>
      rw [List.filterMap_cons_some horder, List.countP_cons]
      split
      case isTrue htype =>
        have hlength := length_of_orderOf_add horder (of_decide_eq_true htype)
        omega
      case isFalse => omega

end Feed

namespace GeneratedAdd

open Feed Generator

/-- Orders that agree with generated messages are Add orders. -/
theorem countP_add_of_agrees {messages : List GeneratedAdd} {orders : List DecodedOrder}
    (h : List.Forall₂ Agrees messages orders) :
    orders.countP (fun order => order.type = .add) = messages.length := by
  induction h with
  | nil => rfl
  | cons hfirst _ ih =>
    rw [List.countP_cons, ih, if_pos (decide_eq_true hfirst.type), List.length_cons]

/-- With room for every message, the decoder returns the generated messages exactly when there
are none. -/
theorem generated_roundTrips_iff (messages : List GeneratedAdd) (spare : ℕ) :
    RoundTrips messages (messages.length + spare) ↔ messages = [] := by
  constructor
  · rintro ⟨orders, horders, hagree⟩
    obtain ⟨frames, rest, hsplits⟩ := exists_splits (generate messages)
    rw [decodeStream_of_splits hsplits, Option.some_inj] at horders
    have hadds := countP_add_of_agrees hagree
    have hprefix : orders.countP (fun order => order.type = .add) ≤
        (frames.filterMap orderOf).countP fun order => order.type = .add := by
      rw [← horders]
      exact (List.take_sublist _ _).countP_le
    have hroom := length_frames_of_adds frames
    have hlength := length_generate messages
    rw [hsplits.bytes_eq, List.length_append, itchAddOrderSize] at hlength
    exact List.eq_nil_of_length_eq_zero (by omega)
  · rintro rfl
    exact ⟨[], rfl, .nil⟩

/-- A file of a single record is decoded to nothing. -/
theorem single_not_roundTrips : ¬ RoundTrips [⟨appleStock, 150000, 1⟩] 1 := by
  rintro ⟨orders, horders, hagree⟩
  have hnone : decodeStream (generate [⟨appleStock, 150000, 1⟩]) 1 = some [] := by decide +kernel
  obtain rfl : orders = [] := Option.some.inj (horders.symm.trans hnone)
  cases hagree

end GeneratedAdd

end NanoRing
