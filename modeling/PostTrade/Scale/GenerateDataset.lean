import PostTrade.Models
import PostTrade.Lib.Columns
import PostTrade.Lib.Date
import PostTrade.Lib.Numbering

/-!
# The scale dataset

`scale/generate_dataset.py` builds a large dataset column by column and writes it partitioned by
symbol and date; `scale/scale_test.py` counts its rows in three ways.

The columns are repeated and tiled on their own, and that they line up is that the rows are a
product: each symbol with each date with each sequence (`map_key_rows`).  So every symbol and date
has its directory, with the sequences from one on in it.

The dates are those of Python, which end with the year 9999: a dataset that would need a later one
is not built (`generateScaleDataset_eq_error_iff`).  The times the two modules measure are left out,
and so is the number of files, which is up to the writer.
-/

set_option autoImplicit false

namespace PostTrade

namespace Scale

open Python Columns Numbering

/-! ## Generation -/

/-- What generating a dataset may raise: `OverflowError` for a date that does not exist, and
`ShapeError` for columns of which one is longer than another. -/
inductive GenerateError
  | overflowError
  | shapeError
  deriving DecidableEq

/-- The columns, before they are one frame. -/
structure TickColumns where
  symbol : List Str
  date : List Date
  sequence : List ℤ
  price : List ℚ

structure ScaleRow where
  symbol : Str
  date : Date
  sequence : ℤ
  price : ℚ
  deriving DecidableEq

structure GenerationResult where
  totalRows : ℕ
  nSymbols : ℕ
  nDays : ℕ
  rowsPerPartition : ℕ
  outputPath : Str
  deriving DecidableEq

/-- A directory of the written dataset, and the rows of the files in it. -/
structure PartitionDirectory where
  path : Str
  rows : List ScaleRow
  deriving DecidableEq

/-- `f"SYM-{i:03d}"`. -/
def symbolName (i : ℕ) : Str := "SYM-".toList ++ zeroPadded 3 i

/-- `symbols`. -/
def symbols (nSymbols : ℕ) : List Str := (List.range nSymbols).map symbolName

/-- `dates`. -/
def dates (startDate : Date) (nDays : ℕ) : Option (List Date) :=
  (List.range nDays).mapM fun d : ℕ ↦ startDate.addDays d

/-- `date(2023, 1, 1)`. -/
def defaultStart : Date := ⟨738521, by decide⟩

example : Datetime.ofOrdinal defaultStart.ordinal = (2023, 1, 1) := by decide +kernel

/-- The columns of the dataset, with the numbers `rng.uniform` draws. -/
def columns (nSymbols nDays rowsPerPartition : ℕ) (startDate : Option Date) (uniform : ℕ → ℚ) :
    Except GenerateError TickColumns :=
  match dates (startDate.getD defaultStart) nDays with
  | none => .error .overflowError
  | some dates =>
    .ok
      { symbol := repeatEach (symbols nSymbols) (nDays * rowsPerPartition)
        date := tile (repeatEach dates rowsPerPartition) nSymbols
        sequence := tile (oneTo rowsPerPartition) (nSymbols * nDays)
        price := (List.range (nSymbols * nDays * rowsPerPartition)).map uniform }

/-- `pl.DataFrame`: a row for each place of the columns. -/
def TickColumns.dataFrame (c : TickColumns) : Except GenerateError (List ScaleRow) :=
  if c.symbol.length = c.date.length ∧ c.date.length = c.sequence.length ∧
      c.sequence.length = c.price.length then
    .ok ((c.symbol.zip (c.date.zip (c.sequence.zip c.price))).map fun row ↦
      ⟨row.1, row.2.1, row.2.2.1, row.2.2.2⟩)
  else .error .shapeError

/-- The directory of a symbol and a date, under the output path. -/
def directPath (symbol date : Str) : Str :=
  "symbol=".toList ++ symbol ++ '/' :: ("date=".toList ++ date)

/-- `write_parquet` with `partition_by=["symbol", "date"]`, to an output path with nothing in it. -/
def writeParquet (rows : List ScaleRow) : List PartitionDirectory :=
  (partitionBy (fun row ↦ (row.symbol, row.date)) rows).map fun part ↦
    ⟨directPath part.1.1 part.1.2.isoformat, part.2⟩

/-- `generate_scale_dataset`: its result, and what it has written. -/
def generateScaleDataset (outputPath : Str) (nSymbols nDays rowsPerPartition : ℕ)
    (startDate : Option Date) (uniform : ℕ → ℚ) :
    Except GenerateError (GenerationResult × List PartitionDirectory) := do
  let cols ← columns nSymbols nDays rowsPerPartition startDate uniform
  let df ← cols.dataFrame
  return ({ totalRows := nSymbols * nDays * rowsPerPartition, nSymbols, nDays, rowsPerPartition,
            outputPath }, writeParquet df)

/-! ## Counting -/

/-- The rows counted by one engine in the three ways. -/
structure QueryCounts where
  fullScan : ℕ
  globFilter : ℕ
  directPartition : ℕ
  deriving DecidableEq

structure ScaleTestReport where
  totalRowsInDataset : ℕ
  polars : QueryCounts
  duckdb : QueryCounts
  deriving DecidableEq

/-- The rows of the files a pattern matches; matching no file is an error. -/
def scan (directories : List PartitionDirectory) : Option (List ScaleRow) :=
  if directories = [] then none else some (directories.flatMap PartitionDirectory.rows)

/-- What either engine counts.  The symbol and the date of a row are read from its directory, and
are those it was written for; the text of a date stands for the date. -/
def queryCounts (dataset : List PartitionDirectory) (targetSymbol targetDate : Str) :
    Option QueryCounts := do
  let all ← scan dataset
  let direct ← scan (dataset.filter fun d ↦ d.path = directPath targetSymbol targetDate)
  return {
    fullScan := all.length
    globFilter := (all.filter fun row ↦
      row.symbol = targetSymbol ∧ row.date.isoformat = targetDate).length
    directPartition := direct.length }

/-- `run_partition_pruning_benchmark`. -/
def runPartitionPruningBenchmark (dataset : List PartitionDirectory)
    (targetSymbol targetDate : Str) : Option ScaleTestReport := do
  let polars ← queryCounts dataset targetSymbol targetDate
  let duckdb ← queryCounts dataset targetSymbol targetDate
  return { totalRowsInDataset := polars.fullScan, polars, duckdb }

/-! ## Symbols and dates -/

theorem symbolName_injective : Function.Injective symbolName := fun _ _ h ↦
  zeroPadded_injective 3 (List.append_cancel_left h)

theorem slash_not_mem_symbolName (i : ℕ) : '/' ∉ symbolName i := by
  rw [symbolName, List.mem_append, not_or]
  exact ⟨by decide, fun h ↦ absurd (isDigit_of_mem_zeroPadded h) (by decide)⟩

/-- The names are apart, however many there are. -/
theorem nodup_symbols (nSymbols : ℕ) : (symbols nSymbols).Nodup :=
  List.nodup_range.map symbolName_injective

theorem slash_not_mem_of_mem_symbols {nSymbols : ℕ} {symbol : Str}
    (h : symbol ∈ symbols nSymbols) : '/' ∉ symbol := by
  obtain ⟨i, -, rfl⟩ := List.mem_map.mp h
  exact slash_not_mem_symbolName i

section Dates

variable {startDate : Date} {nDays : ℕ}

/-- The dates exist when the last of them does. -/
theorem exists_dates_iff : (∃ ds, dates startDate nDays = some ds) ↔
    startDate.ordinal + nDays - 1 ≤ maxOrdinal := by
  have hstart := startDate.bounds
  refine exists_mapM_eq_some_iff.trans ⟨fun h ↦ ?_, fun h d hd ↦ ?_⟩
  · cases nDays with
    | zero =>
      push_cast
      omega
    | succ n =>
      obtain ⟨date, hdate⟩ := h n (List.mem_range.mpr n.lt_succ_self)
      rw [Date.addDays_eq_some_iff] at hdate
      have := date.bounds.2
      push_cast
      omega
  · have hd := List.mem_range.mp hd
    exact ⟨⟨startDate.ordinal + d, by omega, by omega⟩, Date.addDays_eq_some_iff.mpr rfl⟩

variable {ds : List Date} (h : dates startDate nDays = some ds)

include h

theorem map_ordinal_dates :
    ds.map Date.ordinal = (List.range nDays).map fun d : ℕ ↦ startDate.ordinal + d := by
  have hordinals : List.Forall₂ Eq (ds.map Date.ordinal)
      ((List.range nDays).map fun d : ℕ ↦ startDate.ordinal + d) := by
    rw [List.forall₂_map_left_iff, List.forall₂_map_right_iff]
    exact (forall₂_of_mapM_eq_some h).flip.imp fun _ _ hdate ↦ Date.addDays_eq_some_iff.mp hdate
  rwa [List.forall₂_eq_eq_eq] at hordinals

theorem length_dates : ds.length = nDays := by
  simpa using congrArg List.length (map_ordinal_dates h)

theorem nodup_dates : ds.Nodup := by
  refine List.Nodup.of_map Date.ordinal ?_
  rw [map_ordinal_dates h]
  exact List.nodup_range.map fun _ _ heq ↦ by simpa using heq

/-- The date so many days after the first is among them. -/
theorem exists_mem_dates {d : ℕ} (hd : d < nDays) :
    ∃ date ∈ ds, startDate.addDays d = some date := by
  have hmem : startDate.ordinal + d ∈ ds.map Date.ordinal := by
    rw [map_ordinal_dates h]
    exact List.mem_map_of_mem (List.mem_range.mpr hd)
  obtain ⟨date, hdate, hordinal⟩ := List.mem_map.mp hmem
  exact ⟨date, hdate, Date.addDays_eq_some_iff.mpr hordinal⟩

end Dates

/-! ## Rows -/

/-- All columns have the length. -/
structure TickColumns.AllOfLength (c : TickColumns) (n : ℕ) : Prop where
  symbol : c.symbol.length = n
  date : c.date.length = n
  sequence : c.sequence.length = n
  price : c.price.length = n

/-- What a row is for. -/
def ScaleRow.key (row : ScaleRow) : Str × Date × ℤ := (row.symbol, row.date, row.sequence)

/-- Columns of one length are put together, and no row is lost. -/
theorem TickColumns.AllOfLength.dataFrame {c : TickColumns} {n : ℕ} (h : c.AllOfLength n) :
    ∃ rows, c.dataFrame = .ok rows ∧
      rows.map ScaleRow.key = c.symbol.zip (c.date.zip c.sequence) := by
  have hlengths : c.symbol.length = c.date.length ∧ c.date.length = c.sequence.length ∧
      c.sequence.length = c.price.length :=
    ⟨h.symbol.trans h.date.symm, h.date.trans h.sequence.symm, h.sequence.trans h.price.symm⟩
  refine ⟨_, if_pos hlengths, ?_⟩
  have hprices : (c.sequence.zip c.price).map Prod.fst = c.sequence :=
    List.map_fst_zip hlengths.2.2.le
  rw [List.map_map]
  conv_rhs => rw [← hprices, List.zip_map_right, List.zip_map_right]
  rfl

section Grid

variable {nSymbols nDays rowsPerPartition : ℕ} {startDate : Option Date} {uniform : ℕ → ℚ}
  {c : TickColumns} {ds : List Date} (hdates : dates (startDate.getD defaultStart) nDays = some ds)
  (hc : columns nSymbols nDays rowsPerPartition startDate uniform = .ok c)

include hdates hc

theorem columns_allOfLength : c.AllOfLength (nSymbols * nDays * rowsPerPartition) := by
  rw [columns, hdates] at hc
  cases hc
  have hlength := length_dates hdates
  refine ⟨?_, ?_, ?_, ?_⟩
  · simp [symbols, Nat.mul_assoc]
  · simp [hlength, Nat.mul_assoc]
  · simp
  · simp

/-- **The columns line up**: they hold each symbol with each date with each sequence. -/
theorem zip_columns : c.symbol.zip (c.date.zip c.sequence) =
    symbols nSymbols ×ˢ (ds ×ˢ oneTo rowsPerPartition) := by
  rw [columns, hdates] at hc
  cases hc
  have hsymbols : (symbols nSymbols).length = nSymbols := by simp [symbols]
  have hlength := length_dates hdates
  have hday : (repeatEach ds rowsPerPartition).zip (tile (oneTo rowsPerPartition) nDays) =
      ds ×ˢ oneTo rowsPerPartition := by
    have h := zip_repeatEach_tile ds (oneTo rowsPerPartition)
    rwa [length_oneTo, hlength] at h
  have hsymbol := zip_repeatEach_tile (symbols nSymbols) (ds ×ˢ oneTo rowsPerPartition)
  rw [List.length_product, hsymbols, hlength, length_oneTo] at hsymbol
  dsimp only
  rw [tile_mul, zip_tile (by simp [hlength]), hday]
  exact hsymbol

end Grid

/-! ## One symbol and one date -/

section Partition

variable {syms : List Str} {ds : List Date} {seqs : List ℤ} {rows : List ScaleRow}
  (hsyms : syms.Nodup) (hds : ds.Nodup) (hrows : rows.map ScaleRow.key = syms ×ˢ (ds ×ˢ seqs))
  {symbol : Str} {date : Date} (hsymbol : symbol ∈ syms) (hdate : date ∈ ds)

include hsyms hds hrows hsymbol hdate

/-- The rows of a symbol and a date hold every sequence, each once. -/
theorem map_sequence_filter :
    (rows.filter fun row ↦ row.symbol = symbol ∧ row.date = date).map ScaleRow.sequence =
      seqs := by
  have hkeys : (rows.filter fun row ↦ row.symbol = symbol ∧ row.date = date).map ScaleRow.key =
      seqs.map fun seq ↦ (symbol, date, seq) := calc
    _ = (rows.map ScaleRow.key).filter fun k ↦ k.1 = symbol ∧ k.2.1 = date := by
      rw [List.filter_map]
      rfl
    _ = ((syms ×ˢ (ds ×ˢ seqs)).filter fun k ↦ k.1 = symbol).filter fun k ↦ k.2.1 = date := by
      rw [hrows, List.filter_filter]
      simp [and_comm]
    _ = ((ds ×ˢ seqs).filter fun k ↦ k.1 = date).map fun k ↦ (symbol, k) := by
      rw [filter_product hsyms _ hsymbol, List.filter_map]
      rfl
    _ = seqs.map fun seq ↦ (symbol, date, seq) := by
      rw [filter_product hds _ hdate, List.map_map]
      rfl
  have hsequences := congrArg (List.map fun k : Str × Date × ℤ ↦ k.2.2) hkeys
  rw [List.map_map, List.map_map] at hsequences
  exact hsequences.trans (List.map_id _)

end Partition

/-! ## What is read back -/

section Read

variable {rows : List ScaleRow}

theorem directPath_inj {symbol symbol' date date' : Str} (h : '/' ∉ symbol) (h' : '/' ∉ symbol')
    (heq : directPath symbol date = directPath symbol' date') :
    symbol = symbol' ∧ date = date' := by
  have hname : ∀ {s : Str}, '/' ∉ s → '/' ∉ "symbol=".toList ++ s := by
    intro s hs hmem
    rcases List.mem_append.mp hmem with hmem | hmem
    · exact absurd hmem (by decide)
    · exact hs hmem
  obtain ⟨hsymbol, hdate⟩ := append_sep_inj (hname h) (hname h') heq
  exact ⟨List.append_cancel_left hsymbol, List.append_cancel_left hdate⟩

/-- A scan of everything reads the rows that were written. -/
theorem scan_writeParquet (hne : rows ≠ []) :
    ∃ all, scan (writeParquet rows) = some all ∧ all.Perm rows := by
  refine ⟨_, if_neg ?_, ?_⟩
  · rw [writeParquet, List.map_eq_nil_iff, partitionBy_eq_nil_iff]
    exact hne
  · rw [writeParquet, List.flatMap_map]
    exact flatMap_partitionBy_perm _ rows

/-- A scan of one directory reads the rows of its symbol and date. -/
theorem scan_directPath (hslash : ∀ row ∈ rows, '/' ∉ row.symbol) {row : ScaleRow}
    (hrow : row ∈ rows) :
    scan ((writeParquet rows).filter fun d ↦
        d.path = directPath row.symbol row.date.isoformat) =
      some (rows.filter fun r ↦ r.symbol = row.symbol ∧ r.date = row.date) := by
  have hmem : (row.symbol, row.date) ∈ rows.map fun r ↦ (r.symbol, r.date) :=
    List.mem_map_of_mem hrow
  have hpath : ∀ k ∈ (rows.map fun r ↦ (r.symbol, r.date)).dedup,
      (directPath k.1 k.2.isoformat = directPath row.symbol row.date.isoformat ↔
        k = (row.symbol, row.date)) := by
    intro k hk
    obtain ⟨r, hr, rfl⟩ := List.mem_map.mp (List.mem_dedup.mp hk)
    constructor
    · intro heq
      obtain ⟨hsymbol, hdate⟩ := directPath_inj (hslash r hr) (hslash row hrow) heq
      exact Prod.ext hsymbol (Date.isoformat_injective hdate)
    · intro heq
      rw [heq]
  set keys := (rows.map fun r ↦ (r.symbol, r.date)).dedup with hkeys
  have hone : (keys.filter fun k ↦
      directPath k.1 k.2.isoformat = directPath row.symbol row.date.isoformat) =
        [(row.symbol, row.date)] := calc
    _ = keys.filter fun k ↦ k = (row.symbol, row.date) :=
      List.filter_congr fun k hk ↦ decide_eq_decide.mpr (hpath k hk)
    _ = [(row.symbol, row.date)] := by
      rw [List.filter_eq, List.count_eq_one_of_mem (List.nodup_dedup _) (List.mem_dedup.mpr hmem)]
      rfl
  have hdirectory : ((writeParquet rows).filter fun d ↦
      d.path = directPath row.symbol row.date.isoformat) =
        [⟨directPath row.symbol row.date.isoformat,
          rows.filter fun r ↦ (r.symbol, r.date) = (row.symbol, row.date)⟩] := by
    rw [writeParquet, partitionBy, List.map_map, List.filter_map, ← hkeys]
    exact congrArg (List.map _) hone
  rw [hdirectory, scan, if_neg (List.cons_ne_nil _ _), List.flatMap_singleton]
  simp only [Prod.mk.injEq]

/-- **What is counted of a dataset**, in each of the three ways. -/
theorem queryCounts_writeParquet (hslash : ∀ row ∈ rows, '/' ∉ row.symbol) {row : ScaleRow}
    (hrow : row ∈ rows) :
    let n := (rows.filter fun r ↦ r.symbol = row.symbol ∧ r.date = row.date).length
    queryCounts (writeParquet rows) row.symbol row.date.isoformat = some ⟨rows.length, n, n⟩ := by
  intro n
  obtain ⟨all, hscan, hperm⟩ := scan_writeParquet (List.ne_nil_of_mem hrow)
  have hfilter : (all.filter fun r ↦
      r.symbol = row.symbol ∧ r.date.isoformat = row.date.isoformat).length = n := by
    simp only [Date.isoformat_injective.eq_iff]
    exact (hperm.filter _).length_eq
  rw [queryCounts, hscan, scan_directPath hslash hrow]
  simp only [Option.bind_eq_bind, Option.bind_some, Option.pure_def, hperm.length_eq, hfilter, n]

end Read

/-! ## The dataset -/

section Dataset

variable (outputPath : Str) (nSymbols nDays rowsPerPartition : ℕ) (startDate : Option Date)
  (uniform : ℕ → ℚ)

variable {startDate} in
/-- What is generated from dates that exist. -/
theorem exists_columns {ds : List Date}
    (hdates : dates (startDate.getD defaultStart) nDays = some ds) :
    ∃ cols rows, columns nSymbols nDays rowsPerPartition startDate uniform = .ok cols ∧
      cols.AllOfLength (nSymbols * nDays * rowsPerPartition) ∧ cols.dataFrame = .ok rows ∧
      rows.map ScaleRow.key = symbols nSymbols ×ˢ (ds ×ˢ oneTo rowsPerPartition) ∧
      generateScaleDataset outputPath nSymbols nDays rowsPerPartition startDate uniform =
        .ok ({ totalRows := nSymbols * nDays * rowsPerPartition, nSymbols, nDays, rowsPerPartition,
               outputPath }, writeParquet rows) := by
  obtain ⟨cols, hcols⟩ : ∃ cols,
      columns nSymbols nDays rowsPerPartition startDate uniform = .ok cols := by
    rw [columns, hdates]
    exact ⟨_, rfl⟩
  have hall := columns_allOfLength hdates hcols
  obtain ⟨rows, hframe, hkeys⟩ := hall.dataFrame
  refine ⟨cols, rows, hcols, hall, hframe, hkeys.trans (zip_columns hdates hcols), ?_⟩
  rw [generateScaleDataset, hcols]
  show (cols.dataFrame >>= _) = _
  rw [hframe]
  rfl

/-- A date that does not exist is all that can go wrong. -/
theorem generateScaleDataset_eq_error_iff :
    generateScaleDataset outputPath nSymbols nDays rowsPerPartition startDate uniform =
        .error .overflowError ↔
      maxOrdinal < (startDate.getD defaultStart).ordinal + nDays - 1 := by
  rw [← not_le, ← exists_dates_iff]
  cases hdates : dates (startDate.getD defaultStart) nDays with
  | none =>
    rw [generateScaleDataset, columns, hdates]
    exact iff_of_true rfl (by simp)
  | some ds =>
    obtain ⟨cols, rows, -, -, -, -, hgenerated⟩ := exists_columns outputPath nSymbols nDays
      rowsPerPartition uniform hdates
    rw [hgenerated]
    exact iff_of_false (by simp) (not_not_intro ⟨ds, rfl⟩)

/-- **The scale dataset is a full grid.**  Where its last date exists, the columns have a place for
each row, the symbols are apart, and for each symbol and date the rows that carry both have the
sequences from one on, each once; so a full scan counts all the rows, and a filter and the directory
of a symbol and a date count theirs. -/
theorem scale_dataset_grid (hrows : 0 < rowsPerPartition)
    (hlast : (startDate.getD defaultStart).ordinal + nDays - 1 ≤ maxOrdinal) :
    let totalRows := nSymbols * nDays * rowsPerPartition
    ∃ cols rows dataset,
      columns nSymbols nDays rowsPerPartition startDate uniform = .ok cols ∧
      cols.AllOfLength totalRows ∧ cols.dataFrame = .ok rows ∧
      generateScaleDataset outputPath nSymbols nDays rowsPerPartition startDate uniform =
        .ok ({ totalRows, nSymbols, nDays, rowsPerPartition, outputPath }, dataset) ∧
      (symbols nSymbols).Nodup ∧
      ∀ symbol ∈ symbols nSymbols, ∀ d < nDays, ∃ date,
        (startDate.getD defaultStart).addDays d = some date ∧
        (rows.filter fun row ↦ row.symbol = symbol ∧ row.date = date).map ScaleRow.sequence =
          oneTo rowsPerPartition ∧
        runPartitionPruningBenchmark dataset symbol date.isoformat = some
          { totalRowsInDataset := totalRows
            polars := ⟨totalRows, rowsPerPartition, rowsPerPartition⟩
            duckdb := ⟨totalRows, rowsPerPartition, rowsPerPartition⟩ } := by
  intro totalRows
  obtain ⟨ds, hdates⟩ := exists_dates_iff.mpr hlast
  obtain ⟨cols, rows, hcols, hall, hframe, hkeys, hgenerated⟩ :=
    exists_columns outputPath nSymbols nDays rowsPerPartition uniform hdates
  refine ⟨cols, rows, writeParquet rows, hcols, hall, hframe, hgenerated, nodup_symbols nSymbols,
    fun symbol hsymbol d hd ↦ ?_⟩
  obtain ⟨date, hdate, hday⟩ := exists_mem_dates hdates hd
  have hsequences := map_sequence_filter (nodup_symbols nSymbols) (nodup_dates hdates) hkeys
    hsymbol hdate
  refine ⟨date, hday, hsequences, ?_⟩
  have hcount := congrArg List.length hsequences
  rw [List.length_map, length_oneTo] at hcount
  have hlength := congrArg List.length hkeys
  rw [List.length_map, List.length_product, List.length_product, length_dates hdates,
    length_oneTo, ← Nat.mul_assoc, symbols, List.length_map, List.length_range] at hlength
  -- the names that are written have no `/` in them
  have hslash : ∀ row ∈ rows, '/' ∉ row.symbol := by
    intro row hrow
    have hmem : row.key ∈ symbols nSymbols ×ˢ (ds ×ˢ oneTo rowsPerPartition) :=
      hkeys ▸ List.mem_map_of_mem hrow
    exact slash_not_mem_of_mem_symbols (List.mem_product.mp hmem).1
  obtain ⟨row, hmem⟩ := List.exists_mem_of_length_pos (hcount ▸ hrows)
  obtain ⟨hrow, hfor⟩ := List.mem_filter.mp hmem
  obtain ⟨rfl, rfl⟩ := of_decide_eq_true hfor
  have hcounts := queryCounts_writeParquet hslash hrow
  rw [hcount, hlength] at hcounts
  rw [runPartitionPruningBenchmark, hcounts]
  rfl

end Dataset

/-! ### Three symbols, three days -/

/-- `date(2024, 1, 1)`. -/
def newYear2024 : Date := ⟨738886, by decide⟩

/-- The dataset of the tests, and what is counted of it. -/
theorem grid_of_three :
    ∃ dataset, generateScaleDataset "scale_small".toList 3 3 100 (some newYear2024) (fun _ ↦ 1) =
        .ok (⟨900, 3, 3, 100, "scale_small".toList⟩, dataset) ∧
      runPartitionPruningBenchmark dataset "SYM-001".toList "2024-01-02".toList =
        some ⟨900, ⟨900, 100, 100⟩, ⟨900, 100, 100⟩⟩ := by
  obtain ⟨cols, rows, dataset, -, -, -, hgenerated, -, hcounts⟩ := scale_dataset_grid
    "scale_small".toList 3 3 100 (some newYear2024) (fun _ ↦ 1) (by decide) (by decide)
  obtain ⟨date, hday, -, hcount⟩ := hcounts "SYM-001".toList (by decide +kernel) 1 (by decide)
  have hdate : date = ⟨738887, by decide⟩ := Date.ext (Date.addDays_eq_some_iff.mp hday)
  have htext : date.isoformat = "2024-01-02".toList := by
    rw [hdate]
    decide +kernel
  rw [htext] at hcount
  exact ⟨dataset, hgenerated, hcount⟩

/-- Of three million days from the default start on, the last ones do not exist. -/
theorem no_dataset_past_max :
    generateScaleDataset "scale_test".toList 1 3000000 1 none (fun _ ↦ 1) =
      .error .overflowError :=
  (generateScaleDataset_eq_error_iff _ 1 3000000 1 none _).mpr (by decide)

end Scale

end PostTrade
