import PostTrade.Models
import PostTrade.Lib.Frame

/-!
# The tick store and the book store

The tables of `storage/timeseries_store.py` and `storage/book_store.py`, and the statements the
rest of the pipeline runs against them.

A table is the list of its rows.  An `INSERT` or `COPY` appends, a `SELECT` filters, and an
`ORDER BY` is a stable sort; the order of rows that tie is the order they stand in, so a result
proved for every table covers every order Postgres may return ties in.  `BETWEEN` is inclusive at
both ends.

The `ticks` table has no key.  The `fills` table has one, `fill_id`, and its insert leaves the
table alone when the key is taken.
-/

set_option autoImplicit false

namespace PostTrade

/-! ## Ticks -/

/-- A row of the `ticks` table. -/
structure TickRow where
  time : Time
  symbol : Str
  sequence : ℤ
  price : ℚ
  size : Option ℚ
  side : Option Str
  exchange : Str
  channel : Str
  ingestTime : Time
  worker : Option Str
  deriving DecidableEq

/-- The row written for a tick, with the name of the worker that writes it. -/
def TickRow.ofTick (tick : Tick) (worker : Option Str) : TickRow where
  time := tick.exchangeTimestamp
  symbol := tick.symbol
  sequence := tick.sequence
  price := tick.price
  size := tick.size
  side := tick.side.map Side.value
  exchange := tick.exchange.value
  channel := tick.channel
  ingestTime := tick.ingestTimestamp
  worker := worker

/-- The `ticks` table. -/
abbrev TickStore := List TickRow

namespace TickStore

/-- `write_tick`: one autocommitted insert. -/
def writeTick (store : TickStore) (tick : Tick) (worker : Option Str) : TickStore :=
  store ++ [TickRow.ofTick tick worker]

/-- `write_ticks_batch`: the whole batch in one `COPY`. -/
def writeTicksBatch (store : TickStore) (ticks : List Tick) (worker : Option Str) : TickStore :=
  if ticks = [] then store else store ++ ticks.map fun tick ↦ TickRow.ofTick tick worker

theorem writeTicksBatch_eq (store : TickStore) (ticks : List Tick) (worker : Option Str) :
    store.writeTicksBatch ticks worker
      = store ++ ticks.map fun tick ↦ TickRow.ofTick tick worker := by
  rw [writeTicksBatch]
  split
  · rename_i h
    simp [h]
  · rfl

/-- `delete_sequences`: the store without the named ticks, and the sequences removed, one for
every row. -/
def deleteSequences (store : TickStore) (symbol : Str) (sequences : List ℤ) :
    TickStore × List ℤ :=
  if sequences = [] then (store, [])
  else
    (store.filter fun t ↦ ¬ (t.symbol = symbol ∧ t.sequence ∈ sequences),
      (store.filter fun t ↦ t.symbol = symbol ∧ t.sequence ∈ sequences).map TickRow.sequence)

theorem deleteSequences_eq (store : TickStore) (symbol : Str) (sequences : List ℤ) :
    store.deleteSequences symbol sequences =
      (store.filter fun t ↦ ¬ (t.symbol = symbol ∧ t.sequence ∈ sequences),
        (store.filter fun t ↦ t.symbol = symbol ∧ t.sequence ∈ sequences).map
          TickRow.sequence) := by
  rw [deleteSequences]
  split
  · rename_i h
    simp [h]
  · rfl

/-- The sequences the rows of one symbol carry. -/
def sequencesOf (store : TickStore) (symbol : Str) : List ℤ :=
  (store.filter fun t ↦ t.symbol = symbol).map TickRow.sequence

@[simp] theorem mem_sequencesOf {store : TickStore} {symbol : Str} {m : ℤ} :
    m ∈ store.sequencesOf symbol ↔ ∃ t ∈ store, t.symbol = symbol ∧ t.sequence = m := by
  simp [sequencesOf, and_assoc]

/-- `read_ticks_df`. -/
def readTicksDf (store : TickStore) (symbol : Str) (start stop : Time) : List TickRow :=
  Frame.sortBy TickRow.time
    (store.filter fun t ↦ t.symbol = symbol ∧ start ≤ t.time ∧ t.time ≤ stop)

@[simp] theorem mem_readTicksDf {store : TickStore} {symbol : Str} {start stop : Time}
    {t : TickRow} : t ∈ store.readTicksDf symbol start stop ↔
      t ∈ store ∧ t.symbol = symbol ∧ start ≤ t.time ∧ t.time ≤ stop := by
  simp [readTicksDf]

end TickStore

/-! ## The book -/

/-- A row of the `planted_anomalies` table. -/
structure PlantedAnomaly where
  anomalyType : AnomalyType
  symbol : Str
  plantedAt : Time
  detail : Detail
  relatedFillId : Option Str := none
  relatedSequenceStart : Option ℤ := none
  relatedSequenceEnd : Option ℤ := none
  deriving DecidableEq

/-- The tables `fills`, `positions` and `planted_anomalies`. -/
structure BookStore where
  fills : List Fill := []
  positions : List Position := []
  plantedAnomalies : List PlantedAnomaly := []

namespace BookStore

/-- `write_fill`: `INSERT … ON CONFLICT (fill_id) DO NOTHING`. -/
def writeFill (book : BookStore) (fill : Fill) : BookStore :=
  if fill.fillId ∈ book.fills.map Fill.fillId then book
  else { book with fills := book.fills ++ [fill] }

/-- `write_position`. -/
def writePosition (book : BookStore) (position : Position) : BookStore :=
  { book with positions := book.positions ++ [position] }

/-- `log_planted_anomaly`. -/
def logPlantedAnomaly (book : BookStore) (anomaly : PlantedAnomaly) : BookStore :=
  { book with plantedAnomalies := book.plantedAnomalies ++ [anomaly] }

/-- `read_fills_df`. -/
def readFillsDf (book : BookStore) (symbol : Str) (start stop : Time) : List Fill :=
  Frame.sortBy Fill.timestamp
    (book.fills.filter fun f ↦ f.symbol = symbol ∧ start ≤ f.timestamp ∧ f.timestamp ≤ stop)

/-- `read_positions_df`. -/
def readPositionsDf (book : BookStore) (symbol : Str) (start stop : Time) : List Position :=
  Frame.sortBy Position.lastUpdated
    (book.positions.filter fun p ↦
      p.symbol = symbol ∧ start ≤ p.lastUpdated ∧ p.lastUpdated ≤ stop)

@[simp] theorem mem_readFillsDf {book : BookStore} {symbol : Str} {start stop : Time} {f : Fill} :
    f ∈ book.readFillsDf symbol start stop ↔
      f ∈ book.fills ∧ f.symbol = symbol ∧ start ≤ f.timestamp ∧ f.timestamp ≤ stop := by
  simp [readFillsDf]

@[simp] theorem mem_readPositionsDf {book : BookStore} {symbol : Str} {start stop : Time}
    {p : Position} : p ∈ book.readPositionsDf symbol start stop ↔
      p ∈ book.positions ∧ p.symbol = symbol ∧ start ≤ p.lastUpdated ∧ p.lastUpdated ≤ stop := by
  simp [readPositionsDf]

/-- The fills of one symbol, in the order they were written. -/
def fillsOf (book : BookStore) (symbol : Str) : List Fill :=
  book.fills.filter fun f ↦ f.symbol = symbol

@[simp] theorem mem_fillsOf {book : BookStore} {symbol : Str} {f : Fill} :
    f ∈ book.fillsOf symbol ↔ f ∈ book.fills ∧ f.symbol = symbol := by
  simp [fillsOf]

/-- The anomalies of one type logged for one symbol. -/
def anomaliesOf (book : BookStore) (type : AnomalyType) (symbol : Str) : List PlantedAnomaly :=
  book.plantedAnomalies.filter fun a ↦ a.anomalyType = type ∧ a.symbol = symbol

theorem anomaliesOf_eq (book : BookStore) (type : AnomalyType) (symbol : Str) :
    book.anomaliesOf type symbol =
      (book.plantedAnomalies.filter fun a ↦ a.anomalyType = type).filter fun a ↦
        a.symbol = symbol := by
  rw [anomaliesOf, List.filter_filter]
  refine List.filter_congr fun a _ ↦ ?_
  simp [Bool.and_comm]

theorem readFillsDf_perm (book : BookStore) (symbol : Str) (start stop : Time) :
    (book.readFillsDf symbol start stop).Perm
      ((book.fillsOf symbol).filter fun f ↦ start ≤ f.timestamp ∧ f.timestamp ≤ stop) := by
  refine (Frame.sortBy_perm _ _).trans (List.Perm.of_eq ?_)
  rw [fillsOf, List.filter_filter]
  congr 1
  funext f
  simp [Bool.and_comm]

end BookStore

end PostTrade
