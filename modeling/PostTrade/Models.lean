import Mathlib

/-!
# The records of the pipeline

The pydantic models of `posttrade/models`, field by field.  Three conventions run through the
whole development.

* A Python string is a `Str`, the list of its characters.  Symbols, fill ids and message ids are
  strings like any other: nothing is assumed about the characters in them.  A string with a lone
  surrogate, which is no character, has the replacement character in its place.
* A `datetime` is a `Time`, the number of microseconds since the epoch in UTC, and a `timedelta`
  is a difference of two of them.  This is the resolution of both Python and Postgres.
* A `Decimal` is a rational number.  Every comparison and sum of the source is then exact.
-/

set_option autoImplicit false

namespace PostTrade

/-- A Python string: its characters in order. -/
abbrev Str := List Char

instance : LawfulBEq Str := inferInstance

/-- An instant, in microseconds since the epoch. -/
abbrev Time := ℤ

/-- `timedelta(seconds=s)`. -/
def seconds (s : ℤ) : ℤ := 1000000 * s

/-- `timedelta(minutes=m)`. -/
def minutes (m : ℤ) : ℤ := 60 * seconds m

/-! ## Enumerations -/

inductive Exchange
  | coinbase
  | kraken
  | simulated
  deriving DecidableEq, Repr

inductive Side
  | buy
  | sell
  deriving DecidableEq, Repr

inductive BreakType
  | unmatchedFill
  | positionDrift
  | sequenceGap
  deriving DecidableEq, Repr

/-- The string stored in a `side` column (`Side.value`). -/
def Side.value : Side → Str
  | .buy => "buy".toList
  | .sell => "sell".toList

/-- The string stored in an `exchange` column (`Exchange.value`). -/
def Exchange.value : Exchange → Str
  | .coinbase => "coinbase".toList
  | .kraken => "kraken".toList
  | .simulated => "simulated".toList

/-! ## Market data and the book -/

/-- A single normalized market data update for one symbol. -/
structure Tick where
  symbol : Str
  /-- Assigned by the ingestor, per symbol. -/
  sequence : ℤ
  price : ℚ
  size : Option ℚ := none
  side : Option Side := none
  exchange : Exchange
  channel : Str
  exchangeTimestamp : Time
  ingestTimestamp : Time
  /-- Whether UTF-8 can encode the symbol.  A tick with a lone surrogate in its symbol can be built;
  publishing it and writing it to a file raise. -/
  encodable : Bool := true
  deriving DecidableEq

/-- The anomaly types the simulator plants (`ANOMALY_TYPES`). -/
inductive AnomalyType
  | unmatchedFill
  | positionDrift
  | sequenceGap
  deriving DecidableEq, Repr

/-- A synthetic execution generated by the trade book simulator. -/
structure Fill where
  fillId : Str
  orderId : Str
  symbol : Str
  /-- The per-symbol execution order, independent of `timestamp`. -/
  sequence : ℤ
  price : ℚ
  quantity : ℚ
  side : Side
  timestamp : Time
  isPlantedAnomaly : Bool := false
  anomalyType : Option AnomalyType := none
  deriving DecidableEq

/-- The quantity a fill adds to the position of its symbol. -/
def Fill.signedQty (f : Fill) : ℚ := if f.side = .buy then f.quantity else -f.quantity

/-- Running position for one symbol, recomputed from the fill stream. -/
structure Position where
  symbol : Str
  quantity : ℚ
  avgPrice : ℚ
  lastUpdated : Time
  lastFillId : Option Str := none
  deriving DecidableEq

/-! ## Breaks -/

/-- A hole of an f-string, or the text between two of them.  The values stay values: how Python
prints a decimal or a datetime plays no part in anything below. -/
inductive Piece
  | text (s : String)
  | str (s : Str)
  | decimal (q : ℚ)
  | time (t : Time)
  | span (d : ℤ)
  | int (n : ℤ)
  | ints (l : List ℤ)
  deriving DecidableEq

/-- The text of a break or of a planted anomaly, as the f-string that builds it. -/
abbrev Detail := List Piece

/-- A reconciliation break flagged between the simulated book and observed market data. -/
structure Break where
  breakType : BreakType
  symbol : Str
  detectedAt : Time
  detail : Detail
  relatedFillId : Option Str := none
  relatedSequence : Option ℤ := none
  deriving DecidableEq

/-- A tick for the runs on fixed inputs. -/
def btcTick (sequence : ℤ) (now : Time) : Tick where
  symbol := "BTC-USD".toList
  sequence := sequence
  price := 100
  exchange := .coinbase
  channel := "matches".toList
  exchangeTimestamp := now
  ingestTimestamp := now

end PostTrade
