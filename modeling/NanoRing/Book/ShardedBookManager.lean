import NanoRing.Book.OrderBook

/-!
# The sharded book manager

One manager owns the books of a subset of the symbols. An open-addressed map of fixed
capacity assigns each ticker key the index of its book, in the order in which keys first
appear; the two loops over the map, of `apply` and of `getBook`, are written separately.
Array elements, sizes and counters of type `size_t` are natural numbers.
-/

namespace NanoRing

open ProbeLoop

structure ShardedBookManager where
  symbolKeys : ℕ → UInt64
  symbolVals : ℕ → ℕ
  books : ℕ → OrderBook
  bookCount : ℕ
  totalMessages : ℕ

namespace ShardedBookManager

def maxSymbolsPerShard : ℕ := 512

def symbolMapCapacity : ℕ := 1024

/-- The value of a map slot that is not in use. -/
def EMPTY_VAL : ℕ := 2 ^ 64 - 1

/-- The answer of `findOrInsertSymbol` when the key has no book. -/
def FULL : ℕ := 2 ^ 64 - 1

/-- The freshly built manager. -/
def empty : ShardedBookManager where
  symbolKeys := fun _ => 0
  symbolVals := fun _ => EMPTY_VAL
  books := fun _ => .empty
  bookCount := 0
  totalMessages := 0

def symbolHash (key : UInt64) : UInt64 :=
  let key := key ^^^ (key >>> 33)
  let key := key * 0xff51afd7ed558ccd
  key ^^^ (key >>> 33)

/-- The slot index at which the probe path of a ticker key starts. -/
def home (tickerKey : UInt64) : ℕ := (symbolHash tickerKey).toNat &&& (symbolMapCapacity - 1)

/-- The slot index that follows `idx` on every probe path. -/
def next (idx : ℕ) : ℕ := (idx + 1) &&& (symbolMapCapacity - 1)

/-- One iteration of `findOrInsertSymbol`: the updated manager with the answer, or `none` to
continue the loop. -/
def findOrInsertVisit (m : ShardedBookManager) (tickerKey : UInt64) (idx : ℕ) :
    Option (ShardedBookManager × ℕ) :=
  if m.symbolVals idx == EMPTY_VAL then
    if m.bookCount ≥ maxSymbolsPerShard then some (m, FULL)
    else
      let m' := { m with
        symbolKeys := Function.update m.symbolKeys idx tickerKey
        symbolVals := Function.update m.symbolVals idx m.bookCount
        bookCount := m.bookCount + 1 }
      some (m', m'.symbolVals idx)
  else if m.symbolKeys idx == tickerKey then some (m, m.symbolVals idx)
  else none

/-- The book index of a ticker key, which is given the next free book when it is new. -/
def findOrInsertSymbol (m : ShardedBookManager) (tickerKey : UInt64) : ShardedBookManager × ℕ :=
  (probe (m.findOrInsertVisit tickerKey) next symbolMapCapacity (home tickerKey)).getD (m, FULL)

def apply (m : ShardedBookManager) (order : DecodedOrder) : ShardedBookManager :=
  let (m, bookIdx) := m.findOrInsertSymbol order.tickerKey
  if bookIdx == FULL then m
  else
    { m with
      books := Function.update m.books bookIdx ((m.books bookIdx).apply order)
      totalMessages := m.totalMessages + 1 }

def symbolCount (m : ShardedBookManager) : ℕ := m.bookCount

/-- One iteration of `getBook`: `some none` is the null return, `none` continues the loop. -/
def getBookVisit (m : ShardedBookManager) (tickerKey : UInt64) (idx : ℕ) :
    Option (Option OrderBook) :=
  if m.symbolVals idx == EMPTY_VAL then some none
  else if m.symbolKeys idx == tickerKey then some (some (m.books (m.symbolVals idx)))
  else none

/-- The book of a ticker key, behind the pointer that the source returns. -/
def getBook (m : ShardedBookManager) (tickerKey : UInt64) : Option OrderBook :=
  (probe (m.getBookVisit tickerKey) next symbolMapCapacity (home tickerKey)).join

/-- The manager after a list of messages, in order. -/
def applyAll (m : ShardedBookManager) (orders : List DecodedOrder) : ShardedBookManager :=
  orders.foldl apply m

theorem applyAll_snoc (m : ShardedBookManager) (orders : List DecodedOrder) (order : DecodedOrder) :
    m.applyAll (orders ++ [order]) = (m.applyAll orders).apply order := by
  simp only [applyAll, List.foldl_append, List.foldl_cons, List.foldl_nil]

end ShardedBookManager

end NanoRing
