import Mathlib.Data.Nat.Notation

/-!
# Decoded orders and the packed ITCH layouts

`DecodedOrder` is the canonical record that every later stage works on. The ITCH
structures are packed, so a raw message is its bytes and a field is an offset into them;
the offsets below are those of the packed declarations, in declaration order.
-/

namespace NanoRing

/-- The kinds of decoded message. -/
inductive OrderType
  | add
  | execute
  | delete
  | replace
deriving DecidableEq, Repr, Inhabited

/-- The internal representation of a message after decoding. -/
structure DecodedOrder where
  type : OrderType
  orderRef : UInt64
  tickerKey : UInt64
  price : UInt32
  shares : UInt32
  side : UInt8
  newOrderRef : UInt64
deriving DecidableEq, Repr, Inhabited

/-- The side byte of a buy order, `'B'`. -/
def sideBuy : UInt8 := 66

/-- The side byte of a sell order, `'S'`. -/
def sideSell : UInt8 := 83

/-! ## Type bytes -/

/-- `'A'`. -/
def typeAdd : UInt8 := 65

/-- `'D'`. -/
def typeDelete : UInt8 := 68

/-- `'E'`. -/
def typeExecute : UInt8 := 69

/-- `'U'`. -/
def typeReplace : UInt8 := 85

/-! ## Message sizes, excluding the length prefix -/

def itchAddOrderSize : ℕ := 36

def itchOrderExecutedSize : ℕ := 31

def itchOrderDeleteSize : ℕ := 19

def itchOrderReplaceSize : ℕ := 35

/-! ## Field offsets

Every layout starts with the type byte, the stock locate (2 bytes), the tracking number
(2 bytes) and the timestamp (6 bytes). -/

namespace ItchAddOrder

def orderRefNum : ℕ := 11

def buySellIndicator : ℕ := 19

def shares : ℕ := 20

def stock : ℕ := 24

def price : ℕ := 32

end ItchAddOrder

namespace ItchOrderExecuted

def orderRefNum : ℕ := 11

def executedShares : ℕ := 19

end ItchOrderExecuted

namespace ItchOrderDelete

def orderRefNum : ℕ := 11

end ItchOrderDelete

namespace ItchOrderReplace

def originalOrderRef : ℕ := 11

def newOrderRef : ℕ := 19

def shares : ℕ := 27

def price : ℕ := 31

end ItchOrderReplace

end NanoRing
