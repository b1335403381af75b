import NanoRing.Common.ByteOrder
import NanoRing.Feed.ItchMessages

/-!
# The stream decoder

`decodeStream` walks a stream of length-prefixed messages and decodes the known types. The
stream is the list of its bytes, `raw` pointers are offsets into it, and every read is
checked: a read outside the stream has no result, so a result is also a proof that there
was none. The host is little-endian. The entries written to `output` so far are a list, and
`count` is its length.
-/

namespace NanoRing

namespace SimdDecoder

/-- `memcpy` of `n` bytes out of the stream. -/
def readBytes (stream : List UInt8) (offset n : ℕ) : Option (List UInt8) :=
  if offset + n ≤ stream.length then some ((stream.drop offset).take n) else none

def loadTicker (stream : List UInt8) (ptr : ℕ) : Option UInt64 :=
  (readBytes stream ptr 8).map fun bytes => UInt64.ofNat (ByteOrder.little bytes)

/-- The four bytes in host order; the swap is left to the caller. -/
def loadU32Be (stream : List UInt8) (ptr : ℕ) : Option UInt32 :=
  (readBytes stream ptr 4).map fun bytes => UInt32.ofNat (ByteOrder.little bytes)

def loadU64Unaligned (stream : List UInt8) (ptr : ℕ) : Option UInt64 :=
  (readBytes stream ptr 8).map fun bytes => UInt64.ofNat (ByteOrder.little bytes)

def swap32 (val : UInt32) : UInt32 := UInt32.ofNat (ByteOrder.swap 4 val.toNat)

def decodeAddOrder (stream : List UInt8) (raw : ℕ) : Option DecodedOrder := do
  let orderRef ← loadU64Unaligned stream (raw + ItchAddOrder.orderRefNum)
  let tickerKey ← loadTicker stream (raw + ItchAddOrder.stock)
  let price ← loadU32Be stream (raw + ItchAddOrder.price)
  let shares ← loadU32Be stream (raw + ItchAddOrder.shares)
  let side ← stream[raw + ItchAddOrder.buySellIndicator]?
  return {
    type := .add
    orderRef := orderRef
    tickerKey := tickerKey
    price := swap32 price
    shares := swap32 shares
    side := side
    newOrderRef := 0 }

def decodeExecute (stream : List UInt8) (raw : ℕ) : Option DecodedOrder := do
  let orderRef ← loadU64Unaligned stream (raw + ItchOrderExecuted.orderRefNum)
  let shares ← loadU32Be stream (raw + ItchOrderExecuted.executedShares)
  return {
    type := .execute
    orderRef := orderRef
    tickerKey := 0
    price := 0
    shares := swap32 shares
    side := 0
    newOrderRef := 0 }

def decodeDelete (stream : List UInt8) (raw : ℕ) : Option DecodedOrder := do
  let orderRef ← loadU64Unaligned stream (raw + ItchOrderDelete.orderRefNum)
  return {
    type := .delete
    orderRef := orderRef
    tickerKey := 0
    price := 0
    shares := 0
    side := 0
    newOrderRef := 0 }

def decodeReplace (stream : List UInt8) (raw : ℕ) : Option DecodedOrder := do
  let orderRef ← loadU64Unaligned stream (raw + ItchOrderReplace.originalOrderRef)
  let newOrderRef ← loadU64Unaligned stream (raw + ItchOrderReplace.newOrderRef)
  let price ← loadU32Be stream (raw + ItchOrderReplace.price)
  let shares ← loadU32Be stream (raw + ItchOrderReplace.shares)
  return {
    type := .replace
    orderRef := orderRef
    tickerKey := 0
    price := swap32 price
    shares := swap32 shares
    side := 0
    newOrderRef := newOrderRef }

/-- The handler table; null for an unknown message type. -/
def getHandler (msgType : UInt8) : Option (List UInt8 → ℕ → Option DecodedOrder) :=
  if msgType = typeAdd then some decodeAddOrder
  else if msgType = typeDelete then some decodeDelete
  else if msgType = typeExecute then some decodeExecute
  else if msgType = typeReplace then some decodeReplace
  else none

/-- The size table; zero for an unknown message type. -/
def minMsgSize (msgType : UInt8) : ℕ :=
  if msgType = typeAdd then itchAddOrderSize
  else if msgType = typeDelete then itchOrderDeleteSize
  else if msgType = typeExecute then itchOrderExecutedSize
  else if msgType = typeReplace then itchOrderReplaceSize
  else 0

/-- The message at an offset is appended to the output if its type is known and it is long
enough. -/
def decodeMessage (stream : List UInt8) (offset msgLen : ℕ) (output : List DecodedOrder) :
    Option (List DecodedOrder) := do
  let msgType ← stream[offset]?
  match getHandler msgType with
  | some handler =>
    if msgLen ≥ minMsgSize msgType then return output ++ [← handler stream offset]
    else return output
  | none => return output

/-- The loop of `decodeStream`, with a bound on its iterations. -/
def decodeLoop (stream : List UInt8) (maxOutput : ℕ) :
    ℕ → ℕ → List DecodedOrder → Option (List DecodedOrder)
  | 0, _, _ => none
  | budget + 1, offset, output =>
    if offset + 3 ≤ stream.length ∧ output.length < maxOutput then do
      let hi ← stream[offset]?
      let lo ← stream[offset + 1]?
      let msgLen := (hi.toUInt16 <<< 8 ||| lo.toUInt16).toNat
      let offset := offset + 2
      if offset + msgLen > stream.length then return output
      else
        let output ← decodeMessage stream offset msgLen output
        decodeLoop stream maxOutput budget (offset + msgLen) output
    else some output

/-- The decoded messages, in order; every iteration consumes at least a length prefix. -/
def decodeStream (stream : List UInt8) (maxOutput : ℕ) : Option (List DecodedOrder) :=
  decodeLoop stream maxOutput (stream.length + 1) 0 []

end SimdDecoder

end NanoRing
