import NanoRing.Feed.BatchDecoder
import NanoRing.Feed.FeedGenerator

/-!
# The generated test data

The experiments and the main program generate their messages in memory, from random draws. The
random source is not modelled: a theorem about generated messages is about every list of draws
within the ranges of the distributions. The experiments write each decoded order and its raw record
in one loop; the main program writes the raw records, decodes them, and only then draws the types.

Both count references from 1. A reference is 64 bits wide and an array has fewer than `2 ^ 63`
entries, so the count does not wrap, and every reference is handed out once.
-/

namespace NanoRing

open ByteOrder Feed SimdDecoder

/-! ## Draws -/

/-- `NUM_TICKERS`. -/
abbrev numTickers : ℕ := 64

/-- The eight characters that are copied out of a ticker string. -/
def tickerStock (ticker : String) : ItchStock :=
  ⟨List.ofFn fun i : Fin 8 => ticker.toUTF8.data.getD i 0, List.length_ofFn⟩

/-- What one iteration draws. -/
structure Draw where
  tickerIdx : Fin numTickers
  price : UInt32
  shares : UInt32
  buys : Bool
  typeRoll : Fin 10
  price_range : 100000 ≤ price ∧ price ≤ 500000
  shares_range : 1 ≤ shares ∧ shares ≤ 1000

namespace Draw

def side (d : Draw) : UInt8 := if d.buys then sideBuy else sideSell

/-- The type that a roll stands for: six in ten are Adds. -/
def type (d : Draw) : OrderType :=
  if d.typeRoll.val ≤ 5 then .add
  else if d.typeRoll.val ≤ 7 then .execute
  else if d.typeRoll.val = 8 then .delete
  else .replace

/-- The key of the drawn ticker. -/
def tickerKey (d : Draw) (tickers : Vector String numTickers) : UInt64 :=
  .ofNat (little (tickerStock (tickers.get d.tickerIdx)).1)

/-- The raw Add record with the drawn values; the fields that are not written are zero. -/
def raw (d : Draw) (tickers : Vector String numTickers) (orderRef : UInt64) : AddOrderStruct where
  messageType := typeAdd
  stockLocate := 0
  trackingNumber := 0
  timestamp := 0
  orderRefNum := orderRef
  buySellIndicator := d.side
  shares := swap32 d.shares
  stock := tickerStock (tickers.get d.tickerIdx)
  price := swap32 d.price

/-- An order has the drawn values, apart from its type and its references. -/
structure Fills (d : Draw) (tickers : Vector String numTickers) (order : DecodedOrder) : Prop where
  tickerKey : order.tickerKey = d.tickerKey tickers
  price : order.price = d.price
  shares : order.shares = d.shares
  side : order.side = d.side

/-- An order has the drawn values and the drawn type. -/
structure Spells (d : Draw) (tickers : Vector String numTickers) (order : DecodedOrder) : Prop
    extends d.Fills tickers order where
  type : order.type = d.type

end Draw

/-- No reference is handed out twice. -/
structure HandsOutOnce (orders : List DecodedOrder) : Prop where
  ascending : orders.Pairwise fun earlier later => earlier.orderRef < later.orderRef
  fresh : ∀ order ∈ orders, order.type = .replace →
    ∀ other ∈ orders, other.orderRef ≠ order.newOrderRef
  distinct : orders.Pairwise fun earlier later =>
    earlier.type = .replace → later.type = .replace → earlier.newOrderRef ≠ later.newOrderRef

/-- The order as its raw record says it: an Add. -/
def DecodedOrder.asAdd (order : DecodedOrder) : DecodedOrder :=
  { order with type := .add, newOrderRef := 0 }

/-! ## The two loops -/

/-- The generated messages, decoded and raw. -/
structure TestData where
  orders : List DecodedOrder := []
  rawAddOrders : List AddOrderStruct := []

namespace Experiments

def tickers : Vector String numTickers := #v[
  "AAPL    ", "MSFT    ", "TSLA    ", "GOOG    ", "AMZN    ", "NFLX    ", "META    ", "NVDA    ",
  "AMD     ", "INTC    ", "JPM     ", "BAC     ", "WMT     ", "DIS     ", "ORCL    ", "CRM     ",
  "PYPL    ", "UBER    ", "SQ      ", "SNAP    ", "BABA    ", "JD      ", "PDD     ", "NIO     ",
  "PLTR    ", "COIN    ", "HOOD    ", "SOFI    ", "RIVN    ", "LCID    ", "F       ", "GM      ",
  "BA      ", "LMT     ", "RTX     ", "NOC     ", "XOM     ", "CVX     ", "COP     ", "SLB     ",
  "PFE     ", "JNJ     ", "UNH     ", "ABBV    ", "MRK     ", "LLY     ", "TMO     ", "ABT     ",
  "V       ", "MA      ", "AXP     ", "GS      ", "MS      ", "C       ", "WFC     ", "USB     ",
  "T       ", "VZ      ", "TMUS    ", "CMCSA   ", "NFLX    ", "ROKU    ", "SPOT    ", "ZM      "]

/-- One iteration; `next_order_ref` is the second component. -/
def generateOne (state : TestData × UInt64) (d : Draw) : TestData × UInt64 :=
  let orderRef := state.2
  let nextOrderRef := state.2 + 1
  let replaces := d.type = .replace
  let order : DecodedOrder :=
    { type := d.type
      orderRef := orderRef
      tickerKey := d.tickerKey tickers
      price := d.price
      shares := d.shares
      side := d.side
      newOrderRef := if replaces then nextOrderRef else 0 }
  ({ orders := state.1.orders ++ [order]
     rawAddOrders := state.1.rawAddOrders ++ [d.raw tickers orderRef] },
    if replaces then nextOrderRef + 1 else nextOrderRef)

/-- The data of a list of draws. -/
def generateTestData (draws : List Draw) : TestData := (draws.foldl generateOne ({}, 1)).1

end Experiments

namespace Main

def tickers : Vector String numTickers := #v[
  "AAPL    ", "MSFT    ", "TSLA    ", "GOOG    ", "AMZN    ", "NFLX    ", "META    ", "NVDA    ",
  "AMD     ", "INTC    ", "JPM     ", "BAC     ", "WMT     ", "DIS     ", "ORCL    ", "CRM     ",
  "PYPL    ", "UBER    ", "SQ      ", "SNAP    ", "BABA    ", "JD      ", "PDD     ", "NIO     ",
  "PLTR    ", "COIN    ", "HOOD    ", "SOFI    ", "RIVN    ", "LCID    ", "F       ", "GM      ",
  "BA      ", "LMT     ", "RTX     ", "NOC     ", "XOM     ", "CVX     ", "COP     ", "SLB     ",
  "PFE     ", "JNJ     ", "UNH     ", "ABBV    ", "MRK     ", "LLY     ", "TMO     ", "ABT     ",
  "V       ", "MA      ", "AXP     ", "GS      ", "MS      ", "C       ", "WFC     ", "USB     ",
  "T       ", "VZ      ", "TMUS    ", "CMCSA   ", "ROKU    ", "SPOT    ", "ZM      ", "DOCU    "]

/-- One iteration of stage 0; `next_ref` is the second component. -/
def fillRaw (state : List AddOrderStruct × UInt64) (d : Draw) : List AddOrderStruct × UInt64 :=
  (state.1 ++ [d.raw tickers state.2], state.2 + 1)

/-- The raw records of stage 0, and the next reference. -/
def rawMessages (draws : List Draw) : List AddOrderStruct × UInt64 := draws.foldl fillRaw ([], 1)

/-- One iteration of the loop that assigns the types, on a decoded entry and the roll for it. -/
def assignType (state : List DecodedOrder × UInt64) (entry : DecodedOrder × Draw) :
    List DecodedOrder × UInt64 :=
  if entry.2.type = .replace then
    (state.1 ++ [{ entry.1 with type := .replace, newOrderRef := state.2 }], state.2 + 1)
  else (state.1 ++ [{ entry.1 with type := entry.2.type }], state.2)

/-- The messages that stage 1 hands to the pipeline. -/
def decoded (build : SimdBuild) (draws : List Draw) : Option (List DecodedOrder) := do
  let (raws, nextRef) := rawMessages draws
  let (numDecoded, entries) ←
    decodeAddOrdersSimd build (raws.flatMap AddOrderStruct.bytes) draws.length
  return (((entries.take numDecoded).zip draws).foldl assignType ([], nextRef)).1

end Main

/-! ## Raw records -/

/-- A payload that spells an Add order spells the one in its fields. -/
theorem Feed.eq_addOrder {payload : List UInt8} {order : DecodedOrder}
    (horder : orderOf payload = some order) (htype : order.type = .add) :
    order = addOrder payload := by
  unfold orderOf at horder
  repeat' split at horder
  all_goals first
    | contradiction
    | (cases horder; first | rfl | cases htype)

/-- A record with drawn values is the payload of an Add message. -/
theorem Draw.bytes_raw (d : Draw) (tickers : Vector String numTickers) (ref : UInt64) :
    (d.raw tickers ref).bytes = (ItchMessage.add ⟨0, 0, 0⟩ (loadedRef ref) d.side d.shares
      (tickerStock (tickers.get d.tickerIdx)) d.price).encode := by
  have hheader : (⟨0, 0, 0⟩ : ItchHeader).encode =
      littleBytes 2 0 ++ (littleBytes 2 0 ++ littleBytes 6 0) := rfl
  have hbytes : (d.raw tickers ref).bytes = typeAdd :: (littleBytes 2 0 ++ (littleBytes 2 0 ++
      (littleBytes 6 0 ++ (littleBytes 8 ref.toNat ++ ([d.side] ++
        (littleBytes 4 (swap32 d.shares).toNat ++ ((tickerStock (tickers.get d.tickerIdx)).1 ++
          littleBytes 4 (swap32 d.price).toNat))))))) := rfl
  rw [hbytes, ItchMessage.encode, hheader, toNat_loadedRef, bigBytes_swap, littleBytes_swap32,
    littleBytes_swap32, List.append_assoc, List.append_assoc]

/-- A record is decoded as an Add with the drawn values under its own reference. -/
theorem Draw.addOrder_raw (d : Draw) (tickers : Vector String numTickers) (ref : UInt64) :
    addOrder (d.raw tickers ref).bytes =
      ⟨.add, ref, d.tickerKey tickers, d.price, d.shares, d.side, 0⟩ := by
  have hspells := orderOf_encode_add ⟨0, 0, 0⟩ (loadedRef ref) d.side d.shares
    (tickerStock (tickers.get d.tickerIdx)) d.price
  rw [d.bytes_raw, ← eq_addOrder hspells rfl, ItchMessage.decoded, loadedRef_loadedRef]
  rfl

/-- The batch decoder decodes the records of an array one by one, in every build. -/
theorem SimdDecoder.decodeAddOrdersSimd_structs (build : SimdBuild) (raws : List AddOrderStruct) :
    decodeAddOrdersSimd build (raws.flatMap AddOrderStruct.bytes) raws.length =
      some (raws.length, raws.map fun raw => addOrder raw.bytes) := by
  have hrecords : raws.flatMap AddOrderStruct.bytes =
      arrayBytes (raws.map fun raw => ⟨raw.bytes, raw.length_bytes⟩) := by
    rw [arrayBytes, List.flatMap_map]
  have hlength := length_arrayBytes (raws.map fun raw => ⟨raw.bytes, raw.length_bytes⟩)
  have horders := firstOrders_arrayBytes (raws.map fun raw => ⟨raw.bytes, raw.length_bytes⟩)
  rw [List.length_map] at hlength horders
  rw [hrecords, decodeAddOrdersSimd_eq build hlength, horders, List.map_map]
  rfl

end NanoRing
