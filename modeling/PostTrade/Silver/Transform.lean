import PostTrade.Bronze.ObjectStore
import PostTrade.Ingest.Normalize
import PostTrade.Lib.Glob

/-!
# The silver transform

`silver/silver_transform.py`: `transform_symbol_date` rebuilds the Parquet files of one partition
from its bronze lines.  It reads the lines, drops repeated ones, normalizes the rest with an
ingestor of its own, clears the files of the partition and writes one new file.

The lake is the list of Parquet files with their paths, a path being the list of its components.
The files to clear are found by a glob whose pattern has the symbol and the date in it as they are.
The name of a new file is drawn by `uuid4`, and no other file has it.

A lake is changed even by a run that fails late, so the lake after a run comes with every result.
-/

set_option autoImplicit false

namespace PostTrade

open Python

/-! ## Files -/

/-- A row of the silver schema. -/
structure SilverRow where
  symbol : Str
  sequence : ℤ
  price : ℚ
  size : Option ℚ
  side : Option Str
  exchange : Str
  channel : Str
  exchangeTimestamp : Time
  ingestTimestamp : Time
  deriving DecidableEq

/-- A Parquet file. -/
structure SilverFile where
  path : List Str
  rows : List SilverRow
  deriving DecidableEq

abbrev SilverLake := List SilverFile

/-- The rows of all files, as they were written. -/
def SilverLake.rows (lake : SilverLake) : List SilverRow := lake.flatMap SilverFile.rows

/-- The exceptions `transform_symbol_date` raises. -/
inductive TransformError
  | noSuchKey
  | unicodeDecodeError
  | json (e : JsonError)
  | attributeError
  | normalize (e : NormalizeError)
  | unicodeEncodeError
  | arrowInvalid
  deriving DecidableEq, Repr

/-- A run of the transform: its partition, the clock while each line is normalized, and the name
`uuid4` draws. -/
structure Materialization where
  symbol : Str
  date : Str
  clock : Str → Time × Time
  uuid : Str

/-- The partition of a run. -/
def Materialization.partition (m : Materialization) : Partition := (m.symbol, m.date)

structure SilverTransformResult where
  symbol : Str
  date : Str
  linesRead : ℕ
  duplicatesDropped : ℕ
  normalizationFailures : ℕ
  rowsWritten : ℕ
  outputFiles : List (List Str)
  deriving DecidableEq

/-! ## Reading bronze -/

/-- `list_bronze_objects`. -/
def listBronzeObjects (bucket : Bucket) (keyPrefix : Str) : List Str :=
  (bucket.listObjects keyPrefix).map BronzeObject.key

/-- `read_bronze_lines`: the lines of the objects that are not blank. -/
def readBronzeLines (bucket : Bucket) : List Str → Except TransformError (List Str)
  | [] => .ok []
  | key :: rest =>
    match bucket.getObject key with
    | none => .error .noSuchKey
    | some o =>
      match o.body with
      | none => .error .unicodeDecodeError
      | some body =>
        let lines := (splitlines body).filter fun line ↦ strip line ≠ []
        (readBronzeLines bucket rest).map (lines ++ ·)

/-- The lines of a partition. -/
def bronzeLines (bucket : Bucket) (p : Partition) : Except TransformError (List Str) :=
  readBronzeLines bucket (listBronzeObjects bucket (partitionPrefix p.1 p.2))

/-- The lines without repetitions, in the order of their first occurrences, and the number of lines
dropped. -/
def dedupLines : List Str → List Str → List Str × ℕ
  | _, [] => ([], 0)
  | seen, line :: rest =>
    if line ∈ seen then
      let (deduped, dropped) := dedupLines seen rest
      (deduped, dropped + 1)
    else
      let (deduped, dropped) := dedupLines (line :: seen) rest
      (line :: deduped, dropped)

/-! ## Normalizing -/

/-- One line: a tick, or nothing where the line counts as a failure. -/
def normalizeLine (clock : Str → Time × Time) (sequences : Str → ℕ) (line : Str) :
    Except TransformError (Option Tick) × (Str → ℕ) :=
  match Json.loads line with
  | .error .decodeError => (.ok none, sequences)
  | .error e => (.error (.json e), sequences)
  | .ok (.dict data) =>
    let (tick, sequences) :=
      normalize sequences data (Json.get data "type".toList) (clock line).1 (clock line).2
    (tick.mapError .normalize, sequences)
  -- no other value has a `get`
  | .ok _ => (.error .attributeError, sequences)

/-- The loop over the lines: the ticks, and the number of failures. -/
def normalizeLines (clock : Str → Time × Time) :
    (Str → ℕ) → List Str → Except TransformError (List Tick × ℕ)
  | _, [] => .ok ([], 0)
  | sequences, line :: rest =>
    match normalizeLine clock sequences line with
    | (.error e, _) => .error e
    | (.ok none, sequences) =>
      (normalizeLines clock sequences rest).map fun r ↦ (r.1, r.2 + 1)
    | (.ok (some tick), sequences) =>
      (normalizeLines clock sequences rest).map fun r ↦ (tick :: r.1, r.2)

/-! ## Writing silver -/

/-- A number fits `decimal128(18, 8)`. -/
def fitsDecimal128 (q : ℚ) : Bool := (q * 10 ^ 8).den = 1 && |q * 10 ^ 8| < 10 ^ 18

/-- The values of a tick under the columns of `_SCHEMA`. -/
def Tick.toRow (tick : Tick) : SilverRow where
  symbol := tick.symbol
  sequence := tick.sequence
  price := tick.price
  size := tick.size
  side := tick.side.map Side.value
  exchange := tick.exchange.value
  channel := tick.channel
  exchangeTimestamp := tick.exchangeTimestamp
  ingestTimestamp := tick.ingestTimestamp

/-- The row of a tick in the table. -/
def silverRow (tick : Tick) : Except TransformError SilverRow :=
  if !tick.encodable then .error .unicodeEncodeError
  else if fitsDecimal128 tick.price && tick.size.all fitsDecimal128 then .ok tick.toRow
  else .error .arrowInvalid

theorem silverRow_ok {tick : Tick} {row : SilverRow} (h : silverRow tick = .ok row) :
    row = tick.toRow ∧ tick.encodable = true := by
  rw [silverRow] at h
  split at h
  · cases h
  · rename_i hencodable
    split at h
    · cases h
      exact ⟨rfl, by simpa using hencodable⟩
    · cases h

/-- `partition_dir`. -/
def partitionDir (outputDir : List Str) (p : Partition) : List Str :=
  outputDir ++ ["ticks".toList, "symbol=".toList ++ p.1, "date=".toList ++ p.2]

/-- `out_path`. -/
def Materialization.outPath (m : Materialization) (outputDir : List Str) : List Str :=
  partitionDir outputDir m.partition ++ ["part-".toList ++ m.uuid ++ ".parquet".toList]

/-- The glob that looks for the files of a partition finds the path. -/
def finds (outputDir : List Str) (p : Partition) (path : List Str) : Bool :=
  Glob.matchPath (partitionDir outputDir p ++ ["*.parquet".toList]) path

/-- The lake without the stale files of a partition. -/
def clearPartition (outputDir : List Str) (p : Partition) (lake : SilverLake) : SilverLake :=
  lake.filter fun file ↦ !finds outputDir p file.path

/-- `transform_symbol_date`, and the lake after it. -/
def transformSymbolDate (bucket : Bucket) (outputDir : List Str) (lake : SilverLake)
    (m : Materialization) : Except TransformError SilverTransformResult × SilverLake :=
  match bronzeLines bucket m.partition with
  | .error e => (.error e, lake)
  | .ok rawLines =>
    let (deduped, dropped) := dedupLines [] rawLines
    match normalizeLines m.clock (fun _ ↦ 0) deduped with
    | .error e => (.error e, lake)
    | .ok (ticks, failures) =>
      let lake := clearPartition outputDir m.partition lake
      let result : SilverTransformResult := {
        symbol := m.symbol
        date := m.date
        linesRead := rawLines.length
        duplicatesDropped := dropped
        normalizationFailures := failures
        rowsWritten := 0
        outputFiles := [] }
      if ticks = [] then (.ok result, lake)
      else
        match ticks.mapM silverRow with
        | .error e => (.error e, lake)
        | .ok rows =>
          (.ok { result with rowsWritten := ticks.length, outputFiles := [m.outPath outputDir] },
            lake ++ [{ path := m.outPath outputDir, rows }])

end PostTrade
