import NanoRing.Feed.FeedFraming
import Mathlib.Data.List.Forall2

/-!
# Decoding what an ITCH encoder sends

The ITCH 5.0 encoding of messages given by their field values: integer fields in network
order, packed, behind a length prefix. The decoder returns one order for each message, with
every price, number of shares and side as sent. Order references are loaded in host order
without a swap, so they come back with their bytes reversed.
-/

namespace NanoRing

open ByteOrder Framing SimdDecoder

/-- The fields that every message starts with, after its type. -/
structure ItchHeader where
  stockLocate : UInt16
  trackingNumber : UInt16
  timestamp : BitVec 48
deriving DecidableEq

/-- An eight-byte stock symbol. -/
abbrev ItchStock := { bytes : List UInt8 // bytes.length = 8 }

/-- The stock field of AAPL, padded with blanks. -/
def appleStock : ItchStock := ⟨[65, 65, 80, 76, 32, 32, 32, 32], rfl⟩

/-- A message by its logical field values. -/
inductive ItchMessage
  | add (header : ItchHeader) (orderRef : UInt64) (side : UInt8) (shares : UInt32)
      (stock : ItchStock) (price : UInt32)
  | execute (header : ItchHeader) (orderRef : UInt64) (shares : UInt32) (matchNumber : UInt64)
  | delete (header : ItchHeader) (orderRef : UInt64)
  | replace (header : ItchHeader) (orderRef newOrderRef : UInt64) (shares price : UInt32)
deriving DecidableEq

namespace ItchHeader

/-- The header behind the type byte. -/
def encode (header : ItchHeader) : List UInt8 :=
  bigBytes 2 header.stockLocate.toNat ++
    (bigBytes 2 header.trackingNumber.toNat ++ bigBytes 6 header.timestamp.toNat)

theorem length_encode (header : ItchHeader) : header.encode.length = 10 := by
  simp only [encode, List.length_append, length_bigBytes]

end ItchHeader

namespace ItchMessage

/-- The packed layout of a message. -/
def encode : ItchMessage → List UInt8
  | add header orderRef side shares stock price =>
    typeAdd :: (header.encode ++ (bigBytes 8 orderRef.toNat ++ ([side] ++
      (bigBytes 4 shares.toNat ++ (stock.1 ++ bigBytes 4 price.toNat)))))
  | execute header orderRef shares matchNumber =>
    typeExecute :: (header.encode ++ (bigBytes 8 orderRef.toNat ++
      (bigBytes 4 shares.toNat ++ bigBytes 8 matchNumber.toNat)))
  | delete header orderRef => typeDelete :: (header.encode ++ bigBytes 8 orderRef.toNat)
  | replace header orderRef newOrderRef shares price =>
    typeReplace :: (header.encode ++ (bigBytes 8 orderRef.toNat ++ (bigBytes 8 newOrderRef.toNat ++
      (bigBytes 4 shares.toNat ++ bigBytes 4 price.toNat))))

/-- The stream of messages, each behind its length. -/
def encodeStream (messages : List ItchMessage) : List UInt8 :=
  messages.flatMap fun m => frame m.encode

/-- The order references of a message. -/
def refs : ItchMessage → List UInt64
  | add _ orderRef _ _ _ _ => [orderRef]
  | execute _ orderRef _ _ => [orderRef]
  | delete _ orderRef => [orderRef]
  | replace _ orderRef newOrderRef _ _ => [orderRef, newOrderRef]

/-- An order has the values of a message. -/
def Agrees : ItchMessage → DecodedOrder → Prop
  | add _ orderRef side shares _ price, order =>
    order.type = .add ∧ order.orderRef = orderRef ∧ order.price = price ∧ order.shares = shares ∧
      order.side = side
  | execute _ orderRef shares _, order =>
    order.type = .execute ∧ order.orderRef = orderRef ∧ order.shares = shares
  | delete _ orderRef, order => order.type = .delete ∧ order.orderRef = orderRef
  | replace _ orderRef newOrderRef shares price, order =>
    order.type = .replace ∧ order.orderRef = orderRef ∧ order.newOrderRef = newOrderRef ∧
      order.price = price ∧ order.shares = shares

instance (m : ItchMessage) (order : DecodedOrder) : Decidable (m.Agrees order) := by
  cases m <;> exact inferInstanceAs (Decidable (_ ∧ _))

/-- The decoder undoes the encoding of these messages. -/
def RoundTrips (messages : List ItchMessage) (maxOutput : ℕ) : Prop :=
  ∃ orders, decodeStream (encodeStream messages) maxOutput = some orders ∧
    List.Forall₂ Agrees messages orders

end ItchMessage

/-- The bytes of a reference read the same in both orders. -/
def BytePalindrome (ref : UInt64) : Prop := bigBytes 8 ref.toNat = littleBytes 8 ref.toNat

/-- A reference as the decoder loads it from network order. -/
def loadedRef (ref : UInt64) : UInt64 := .ofNat (swap 8 ref.toNat)

/-- A reference is loaded as sent exactly when its bytes are a palindrome. -/
theorem loadedRef_eq_iff (ref : UInt64) : loadedRef ref = ref ↔ BytePalindrome ref := by
  have hswap : swap 8 ref.toNat < 2 ^ 64 := swap_lt 8 ref.toNat
  have hlt : ref.toNat < 256 ^ 8 := ref.toNat_lt
  unfold loadedRef BytePalindrome
  constructor
  · intro h
    have hvalue : swap 8 ref.toNat = ref.toNat := by
      rw [← UInt64.toNat_inj, UInt64.toNat_ofNat_of_lt' hswap] at h
      exact h
    have hbytes := littleBytes_little (bigBytes 8 ref.toNat)
    rw [length_bigBytes, little_bigBytes, hvalue] at hbytes
    exact hbytes.symm
  · intro h
    rw [← little_bigBytes, h, little_littleBytes hlt, UInt64.ofNat_toNat]

namespace ItchMessage

/-- The order that a message is decoded as. -/
def decoded : ItchMessage → DecodedOrder
  | add _ orderRef side shares stock price =>
    ⟨.add, loadedRef orderRef, .ofNat (little stock.1), price, shares, side, 0⟩
  | execute _ orderRef shares _ => ⟨.execute, loadedRef orderRef, 0, 0, shares, 0, 0⟩
  | delete _ orderRef => ⟨.delete, loadedRef orderRef, 0, 0, 0, 0, 0⟩
  | replace _ orderRef newOrderRef shares price =>
    ⟨.replace, loadedRef orderRef, 0, price, shares, 0, loadedRef newOrderRef⟩

end ItchMessage

namespace Feed

/-- A field is found by the number of bytes in front of it. -/
theorem field_eq {payload : List UInt8} (front bytes back : List UInt8)
    (h : payload = front ++ (bytes ++ back)) {offset n : ℕ} (hfront : front.length = offset)
    (hbytes : bytes.length = n) : field payload offset n = bytes := by
  subst h hfront hbytes
  rw [field, List.drop_left, List.take_left]

/-- A byte is found by the number of bytes in front of it. -/
theorem getD_eq {payload : List UInt8} (front : List UInt8) (byte : UInt8) (back : List UInt8)
    (h : payload = front ++ byte :: back) {offset : ℕ} (hfront : front.length = offset) :
    payload.getD offset 0 = byte := by
  subst h hfront
  rw [List.getD_eq_getElem?_getD, List.getElem?_append_right le_rfl, Nat.sub_self]
  rfl

/-- A 32-bit field in network order is read back. -/
theorem ofNat_big_bigBytes (v : UInt32) : UInt32.ofNat (big (bigBytes 4 v.toNat)) = v := by
  rw [big_bigBytes v.toNat_lt, UInt32.ofNat_toNat]

/-- The layout of an encoded Add message. -/
theorem orderOf_encode_add (header : ItchHeader) (orderRef : UInt64) (side : UInt8)
    (shares : UInt32) (stock : ItchStock) (price : UInt32) :
    orderOf (ItchMessage.add header orderRef side shares stock price).encode =
      some (ItchMessage.add header orderRef side shares stock price).decoded := by
  have hheader := header.length_encode
  have hstock := stock.2
  generalize hpayload : (ItchMessage.add header orderRef side shares stock price).encode = payload
  rw [ItchMessage.encode] at hpayload
  have hlength : 36 ≤ payload.length := by simp [← hpayload, hheader, hstock]
  have href : field payload 11 8 = bigBytes 8 orderRef.toNat :=
    field_eq (typeAdd :: header.encode) _ _ (by simp [← hpayload]; rfl) (by simp [hheader]) (by simp)
  have hshares : field payload 20 4 = bigBytes 4 shares.toNat :=
    field_eq (typeAdd :: (header.encode ++ (bigBytes 8 orderRef.toNat ++ [side]))) _ _
      (by simp [← hpayload]; rfl) (by simp [hheader]) (by simp)
  have hticker : field payload 24 8 = stock.1 :=
    field_eq (typeAdd :: (header.encode ++ (bigBytes 8 orderRef.toNat ++ ([side] ++
      bigBytes 4 shares.toNat)))) _ _ (by simp [← hpayload]; rfl) (by simp [hheader]) hstock
  have hprice : field payload 32 4 = bigBytes 4 price.toNat :=
    field_eq (typeAdd :: (header.encode ++ (bigBytes 8 orderRef.toNat ++ ([side] ++
      (bigBytes 4 shares.toNat ++ stock.1))))) _ []
      (by simp [← hpayload]) (by simp [hheader, hstock]) (by simp)
  have hside : payload.getD 19 0 = side :=
    getD_eq (typeAdd :: (header.encode ++ bigBytes 8 orderRef.toNat)) _ _
      (by simp [← hpayload]; rfl) (by simp [hheader])
  have horder : orderOf payload = if 36 ≤ payload.length then some (addOrder payload) else none := by
    rw [← hpayload]
    rfl
  rw [horder, if_pos hlength, addOrder, href, hshares, hticker, hprice, hside]
  simp only [little_bigBytes, ofNat_big_bigBytes, ItchMessage.decoded, loadedRef]

/-- The layout of an encoded Execute message. -/
theorem orderOf_encode_execute (header : ItchHeader) (orderRef : UInt64) (shares : UInt32)
    (matchNumber : UInt64) :
    orderOf (ItchMessage.execute header orderRef shares matchNumber).encode =
      some (ItchMessage.execute header orderRef shares matchNumber).decoded := by
  have hheader := header.length_encode
  generalize hpayload : (ItchMessage.execute header orderRef shares matchNumber).encode = payload
  rw [ItchMessage.encode] at hpayload
  have hlength : 31 ≤ payload.length := by simp [← hpayload, hheader]
  have href : field payload 11 8 = bigBytes 8 orderRef.toNat :=
    field_eq (typeExecute :: header.encode) _ _ (by simp [← hpayload]; rfl) (by simp [hheader])
      (by simp)
  have hshares : field payload 19 4 = bigBytes 4 shares.toNat :=
    field_eq (typeExecute :: (header.encode ++ bigBytes 8 orderRef.toNat)) _ _
      (by simp [← hpayload]; rfl) (by simp [hheader]) (by simp)
  have horder : orderOf payload =
      if 31 ≤ payload.length then some (executeOrder payload) else none := by
    rw [← hpayload]
    rfl
  rw [horder, if_pos hlength, executeOrder, href, hshares]
  simp only [little_bigBytes, ofNat_big_bigBytes, ItchMessage.decoded, loadedRef]

/-- The layout of an encoded Delete message. -/
theorem orderOf_encode_delete (header : ItchHeader) (orderRef : UInt64) :
    orderOf (ItchMessage.delete header orderRef).encode =
      some (ItchMessage.delete header orderRef).decoded := by
  have hheader := header.length_encode
  generalize hpayload : (ItchMessage.delete header orderRef).encode = payload
  rw [ItchMessage.encode] at hpayload
  have hlength : 19 ≤ payload.length := by simp [← hpayload, hheader]
  have href : field payload 11 8 = bigBytes 8 orderRef.toNat :=
    field_eq (typeDelete :: header.encode) _ [] (by simp [← hpayload]) (by simp [hheader]) (by simp)
  have horder : orderOf payload =
      if 19 ≤ payload.length then some (deleteOrder payload) else none := by
    rw [← hpayload]
    rfl
  rw [horder, if_pos hlength, deleteOrder, href]
  simp only [little_bigBytes, ItchMessage.decoded, loadedRef]

/-- The layout of an encoded Replace message. -/
theorem orderOf_encode_replace (header : ItchHeader) (orderRef newOrderRef : UInt64)
    (shares price : UInt32) :
    orderOf (ItchMessage.replace header orderRef newOrderRef shares price).encode =
      some (ItchMessage.replace header orderRef newOrderRef shares price).decoded := by
  have hheader := header.length_encode
  generalize hpayload :
    (ItchMessage.replace header orderRef newOrderRef shares price).encode = payload
  rw [ItchMessage.encode] at hpayload
  have hlength : 35 ≤ payload.length := by simp [← hpayload, hheader]
  have href : field payload 11 8 = bigBytes 8 orderRef.toNat :=
    field_eq (typeReplace :: header.encode) _ _ (by simp [← hpayload]; rfl) (by simp [hheader])
      (by simp)
  have hnew : field payload 19 8 = bigBytes 8 newOrderRef.toNat :=
    field_eq (typeReplace :: (header.encode ++ bigBytes 8 orderRef.toNat)) _ _
      (by simp [← hpayload]; rfl) (by simp [hheader]) (by simp)
  have hshares : field payload 27 4 = bigBytes 4 shares.toNat :=
    field_eq (typeReplace :: (header.encode ++ (bigBytes 8 orderRef.toNat ++
      bigBytes 8 newOrderRef.toNat))) _ _ (by simp [← hpayload]; rfl) (by simp [hheader]) (by simp)
  have hprice : field payload 31 4 = bigBytes 4 price.toNat :=
    field_eq (typeReplace :: (header.encode ++ (bigBytes 8 orderRef.toNat ++
      (bigBytes 8 newOrderRef.toNat ++ bigBytes 4 shares.toNat)))) _ []
      (by simp [← hpayload]) (by simp [hheader]) (by simp)
  have horder : orderOf payload =
      if 35 ≤ payload.length then some (replaceOrder payload) else none := by
    rw [← hpayload]
    rfl
  rw [horder, if_pos hlength, replaceOrder, href, hnew, hshares, hprice]
  simp only [little_bigBytes, ofNat_big_bigBytes, ItchMessage.decoded, loadedRef]

/-- An encoded message spells the order that it is decoded as. -/
theorem orderOf_encode (m : ItchMessage) : orderOf m.encode = some m.decoded := by
  cases m with
  | add header orderRef side shares stock price =>
    exact orderOf_encode_add header orderRef side shares stock price
  | execute header orderRef shares matchNumber =>
    exact orderOf_encode_execute header orderRef shares matchNumber
  | delete header orderRef => exact orderOf_encode_delete header orderRef
  | replace header orderRef newOrderRef shares price =>
    exact orderOf_encode_replace header orderRef newOrderRef shares price

/-- An encoded message fits in a frame. -/
theorem length_encode_lt (m : ItchMessage) : m.encode.length < 2 ^ 16 := by
  cases m with
  | add header _ _ _ stock _ => simp [ItchMessage.encode, header.length_encode, stock.2]
  | execute header _ _ _ => simp [ItchMessage.encode, header.length_encode]
  | delete header _ => simp [ItchMessage.encode, header.length_encode]
  | replace header _ _ _ _ => simp [ItchMessage.encode, header.length_encode]

/-- An encoded stream splits into its messages. -/
theorem splits_encodeStream (messages : List ItchMessage) :
    Splits (ItchMessage.encodeStream messages) (messages.map ItchMessage.encode) [] where
  complete := by
    intro payload hpayload
    obtain ⟨m, -, rfl⟩ := List.mem_map.mp hpayload
    exact length_encode_lt m
  incomplete := trivial
  bytes_eq := by rw [ItchMessage.encodeStream, List.flatMap_map, List.append_nil]

/-- The decoder returns one order for each encoded message, while there is room. -/
theorem decodeStream_encodeStream (messages : List ItchMessage) (maxOutput : ℕ) :
    decodeStream (ItchMessage.encodeStream messages) maxOutput =
      some ((messages.map ItchMessage.decoded).take maxOutput) := by
  have hspell : orderOf ∘ ItchMessage.encode = some ∘ ItchMessage.decoded := funext orderOf_encode
  rw [decodeStream_of_splits (splits_encodeStream messages), List.filterMap_map, hspell,
    List.filterMap_eq_map]

end Feed

namespace ItchMessage

/-- The decoded order of a message has its values exactly when its references are palindromes. -/
theorem agrees_decoded_iff (m : ItchMessage) :
    m.Agrees m.decoded ↔ ∀ ref ∈ m.refs, BytePalindrome ref := by
  cases m <;> simp [Agrees, decoded, refs, loadedRef_eq_iff]

/-- With room for every message, the decoder undoes the encoding exactly when every order
reference has a palindrome of bytes. -/
theorem roundTrips_iff (messages : List ItchMessage) (spare : ℕ) :
    RoundTrips messages (messages.length + spare) ↔
      ∀ m ∈ messages, ∀ ref ∈ m.refs, BytePalindrome ref := by
  have hall : (messages.map decoded).take (messages.length + spare) = messages.map decoded := by
    rw [List.take_of_length_le]
    rw [List.length_map]
    exact Nat.le_add_right _ _
  simp only [RoundTrips, Feed.decodeStream_encodeStream, hall, Option.some.injEq, exists_eq_left',
    List.forall₂_map_right_iff, List.forall₂_same, agrees_decoded_iff]

/-- An Add message with the order reference `1`. -/
def addRefOne : ItchMessage :=
  .add ⟨0, 0, 0⟩ 1 sideBuy 100 appleStock 500

/-- The reference `1` is decoded as `2 ^ 56`. -/
theorem addRefOne_not_roundTrips :
    (decodeStream (encodeStream [addRefOne]) 1).map (List.map DecodedOrder.orderRef) =
      some [72057594037927936] ∧ ¬ RoundTrips [addRefOne] 1 := by
  have hdecoded : (decodeStream (encodeStream [addRefOne]) 1).map (List.map DecodedOrder.orderRef) =
      some [72057594037927936] := by decide +kernel
  refine ⟨hdecoded, fun ⟨orders, horders, hagree⟩ => ?_⟩
  cases hagree with
  | cons hfirst hrest =>
    cases hrest
    rw [horders, Option.map_some, List.map_singleton, hfirst.2.1] at hdecoded
    contradiction

end ItchMessage

end NanoRing
