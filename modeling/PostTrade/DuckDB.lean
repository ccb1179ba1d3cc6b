import PostTrade.Storage
import PostTrade.Lib.Decimal

/-!
# The two tick stores

`DuckDBTickStore` of `storage/timeseries_store.py` has the interface of `TimescaleTickStore`, over
a table of its own.  Its prices and sizes are `DOUBLE`, and so the binary64 numbers nearest to those
written; its times are `TIMESTAMP`, which keeps the instant (the session is in UTC) and not that it
had a time zone.

`StoredTicks` is what both are stores of: the ticks written and not deleted since.  Whatever calls
are made, each store holds a row for every one of them (`timescale_after`, `duckDB_after`), and
gives the same answer to a deletion.
-/

set_option autoImplicit false

namespace PostTrade

open Python

/-! ## The fallback store -/

/-- A row of the `ticks` table of DuckDB. -/
structure DuckDBTickRow where
  time : Time
  symbol : Str
  sequence : ℤ
  price : Python.Decimal
  size : Option Python.Decimal
  side : Option Str
  exchange : Str
  channel : Str
  ingestTime : Time
  worker : Option Str
  deriving DecidableEq

/-- The row written for a tick: its price and its size go through `float`. -/
def DuckDBTickRow.ofTick (tick : Tick) (worker : Option Str) : DuckDBTickRow where
  time := tick.exchangeTimestamp
  symbol := tick.symbol
  sequence := tick.sequence
  price := Float64.ofRat tick.price
  size := tick.size.map Float64.ofRat
  side := tick.side.map Side.value
  exchange := tick.exchange.value
  channel := tick.channel
  ingestTime := tick.ingestTimestamp
  worker := worker

/-- The `ticks` table of DuckDB. -/
abbrev DuckDBTickStore := List DuckDBTickRow

namespace DuckDBTickStore

/-- `write_tick`. -/
def writeTick (store : DuckDBTickStore) (tick : Tick) (worker : Option Str) : DuckDBTickStore :=
  store ++ [DuckDBTickRow.ofTick tick worker]

/-- `write_ticks_batch`: `executemany`, one insert for each row. -/
def writeTicksBatch (store : DuckDBTickStore) (ticks : List Tick) (worker : Option Str) :
    DuckDBTickStore :=
  if ticks = [] then store else ticks.foldl (fun store tick ↦ store.writeTick tick worker) store

/-- `delete_sequences`: what there is to delete is looked up first, and then deleted. -/
def deleteSequences (store : DuckDBTickStore) (symbol : Str) (sequences : List ℤ) :
    DuckDBTickStore × List ℤ :=
  if sequences = [] then (store, [])
  else
    let existing := store.filter fun t ↦ t.symbol = symbol ∧ t.sequence ∈ sequences
    let deleted := existing.map DuckDBTickRow.sequence
    (store.filter fun t ↦ ¬ (t.symbol = symbol ∧ t.sequence ∈ sequences), deleted)

/-- `read_ticks_df`. -/
def readTicksDf (store : DuckDBTickStore) (symbol : Str) (start stop : Time) :
    List DuckDBTickRow :=
  Frame.sortBy DuckDBTickRow.time
    (store.filter fun t ↦ t.symbol = symbol ∧ start ≤ t.time ∧ t.time ≤ stop)

end DuckDBTickStore

/-! ## What they are stores of -/

/-- A call that changes a tick store. -/
inductive StoreCall
  | writeTick (tick : Tick) (worker : Option Str)
  | writeTicksBatch (ticks : List Tick) (worker : Option Str)
  | deleteSequences (symbol : Str) (sequences : List ℤ)

/-- The ticks written and not deleted since, each with its worker, in the order of writing. -/
abbrev StoredTicks := List (Tick × Option Str)

/-- What a call does to them. -/
def StoredTicks.call (stored : StoredTicks) : StoreCall → StoredTicks
  | .writeTick tick worker => stored ++ [(tick, worker)]
  | .writeTicksBatch ticks worker => stored ++ ticks.map fun tick ↦ (tick, worker)
  | .deleteSequences symbol sequences =>
    stored.filter fun w ↦ ¬ (w.1.symbol = symbol ∧ w.1.sequence ∈ sequences)

/-- The ticks written by the calls and not deleted. -/
def StoredTicks.after (calls : List StoreCall) : StoredTicks := calls.foldl StoredTicks.call []

/-- A call on the store of Timescale. -/
def TickStore.call (store : TickStore) : StoreCall → TickStore
  | .writeTick tick worker => store.writeTick tick worker
  | .writeTicksBatch ticks worker => store.writeTicksBatch ticks worker
  | .deleteSequences symbol sequences => (store.deleteSequences symbol sequences).1

/-- The store of Timescale after the calls. -/
def TickStore.after (calls : List StoreCall) : TickStore := calls.foldl TickStore.call []

/-- A call on the store of DuckDB. -/
def DuckDBTickStore.call (store : DuckDBTickStore) : StoreCall → DuckDBTickStore
  | .writeTick tick worker => store.writeTick tick worker
  | .writeTicksBatch ticks worker => store.writeTicksBatch ticks worker
  | .deleteSequences symbol sequences => (store.deleteSequences symbol sequences).1

/-- The store of DuckDB after the calls. -/
def DuckDBTickStore.after (calls : List StoreCall) : DuckDBTickStore :=
  calls.foldl DuckDBTickStore.call []

/-! ## Each store holds them -/

/-- The rows of Timescale. -/
def StoredTicks.rows (stored : StoredTicks) : TickStore := stored.map fun w ↦ TickRow.ofTick w.1 w.2

/-- The rows of DuckDB. -/
def StoredTicks.duckDBRows (stored : StoredTicks) : DuckDBTickStore :=
  stored.map fun w ↦ DuckDBTickRow.ofTick w.1 w.2

theorem rows_call (stored : StoredTicks) (c : StoreCall) :
    (stored.call c).rows = stored.rows.call c := by
  cases c with
  | writeTick tick worker =>
    simp [StoredTicks.call, StoredTicks.rows, TickStore.call, TickStore.writeTick]
  | writeTicksBatch ticks worker =>
    simp [StoredTicks.call, StoredTicks.rows, TickStore.call, TickStore.writeTicksBatch_eq]
  | deleteSequences symbol sequences =>
    rw [TickStore.call, TickStore.deleteSequences_eq, StoredTicks.call, StoredTicks.rows,
      StoredTicks.rows, List.filter_map]
    rfl

/-- One insert after the other adds the rows in order. -/
theorem duckDB_writeTicksBatch_eq (store : DuckDBTickStore) (ticks : List Tick)
    (worker : Option Str) : store.writeTicksBatch ticks worker =
      store ++ ticks.map fun tick ↦ DuckDBTickRow.ofTick tick worker := by
  have hfold : ∀ store : DuckDBTickStore,
      ticks.foldl (fun store tick ↦ store.writeTick tick worker) store =
        store ++ ticks.map fun tick ↦ DuckDBTickRow.ofTick tick worker := by
    induction ticks with
    | nil => simp
    | cons tick rest ih =>
      intro store
      rw [List.foldl_cons, ih, DuckDBTickStore.writeTick, List.append_assoc]
      rfl
  rw [DuckDBTickStore.writeTicksBatch, hfold]
  split
  · rename_i hnil
    simp [hnil]
  · rfl

theorem duckDB_deleteSequences_eq (store : DuckDBTickStore) (symbol : Str) (sequences : List ℤ) :
    store.deleteSequences symbol sequences =
      (store.filter fun t ↦ ¬ (t.symbol = symbol ∧ t.sequence ∈ sequences),
        (store.filter fun t ↦ t.symbol = symbol ∧ t.sequence ∈ sequences).map
          DuckDBTickRow.sequence) := by
  rw [DuckDBTickStore.deleteSequences]
  split
  · rename_i hnil
    simp [hnil]
  · rfl

theorem duckDBRows_call (stored : StoredTicks) (c : StoreCall) :
    (stored.call c).duckDBRows = stored.duckDBRows.call c := by
  cases c with
  | writeTick tick worker =>
    simp [StoredTicks.call, StoredTicks.duckDBRows, DuckDBTickStore.call, DuckDBTickStore.writeTick]
  | writeTicksBatch ticks worker =>
    simp [StoredTicks.call, StoredTicks.duckDBRows, DuckDBTickStore.call, duckDB_writeTicksBatch_eq]
  | deleteSequences symbol sequences =>
    rw [DuckDBTickStore.call, duckDB_deleteSequences_eq, StoredTicks.call, StoredTicks.duckDBRows,
      StoredTicks.duckDBRows, List.filter_map]
    rfl

/-- **Timescale holds the ticks that are written and not deleted**, after any calls. -/
theorem timescale_after (calls : List StoreCall) :
    TickStore.after calls = (StoredTicks.after calls).rows := by
  show calls.foldl TickStore.call (StoredTicks.rows []) = _
  exact List.foldl_hom StoredTicks.rows fun stored c ↦ (rows_call stored c).symm

/-- **So does DuckDB.** -/
theorem duckDB_after (calls : List StoreCall) :
    DuckDBTickStore.after calls = (StoredTicks.after calls).duckDBRows := by
  show calls.foldl DuckDBTickStore.call (StoredTicks.duckDBRows []) = _
  exact List.foldl_hom StoredTicks.duckDBRows fun stored c ↦ (duckDBRows_call stored c).symm

/-- A deletion returns the same from either store. -/
theorem deleteSequences_same (calls : List StoreCall) (symbol : Str) (sequences : List ℤ) :
    ((DuckDBTickStore.after calls).deleteSequences symbol sequences).2 =
      ((TickStore.after calls).deleteSequences symbol sequences).2 := by
  rw [timescale_after, duckDB_after, TickStore.deleteSequences_eq, duckDB_deleteSequences_eq]
  simp only [StoredTicks.rows, StoredTicks.duckDBRows, List.filter_map, List.map_map]
  rfl

/-- The ticks of a symbol in a window, in the order of their times. -/
def StoredTicks.between (stored : StoredTicks) (symbol : Str) (start stop : Time) : StoredTicks :=
  Frame.sortBy (fun w ↦ w.1.exchangeTimestamp) (stored.filter fun w ↦
    w.1.symbol = symbol ∧ start ≤ w.1.exchangeTimestamp ∧ w.1.exchangeTimestamp ≤ stop)

@[simp] theorem mem_between {stored : StoredTicks} {symbol : Str} {start stop : Time}
    {w : Tick × Option Str} : w ∈ stored.between symbol start stop ↔ w ∈ stored ∧
      w.1.symbol = symbol ∧ start ≤ w.1.exchangeTimestamp ∧ w.1.exchangeTimestamp ≤ stop := by
  simp [StoredTicks.between]

/-- **Either store reads the same ticks.** -/
theorem readTicksDf_rows (stored : StoredTicks) (symbol : Str) (start stop : Time) :
    stored.rows.readTicksDf symbol start stop = (stored.between symbol start stop).rows := by
  rw [TickStore.readTicksDf, StoredTicks.rows, List.filter_map, StoredTicks.rows,
    ← Frame.map_sortBy]
  rfl

theorem readTicksDf_duckDBRows (stored : StoredTicks) (symbol : Str) (start stop : Time) :
    stored.duckDBRows.readTicksDf symbol start stop =
      (stored.between symbol start stop).duckDBRows := by
  rw [DuckDBTickStore.readTicksDf, StoredTicks.duckDBRows, List.filter_map,
    StoredTicks.duckDBRows, ← Frame.map_sortBy]
  rfl

end PostTrade
