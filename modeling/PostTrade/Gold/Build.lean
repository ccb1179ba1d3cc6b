import PostTrade.Gold.Contiguity
import PostTrade.Lib.DataTests
import PostTrade.Silver.Products

/-!
# The gold build

`dbt build` on what there is of silver: the models `stg_ticks`, `fct_ticks`, `dim_symbol` and
`dim_date`, the tests of `models/staging/sources.yml` and `models/marts/schema.yml`, and the
contiguity test.  `build_gold_op` and `gold_tables` raise when it does not exit with 0.

A test that finds something fails the build, unless its severity is `warn`.  What hangs on a test
that has failed is skipped, which does not make a difference to the exit code.  Without any file
there is nothing to read silver from, and the build fails too.

On files that runs of the transform have written, most of the tests cannot fail, and
`dbtBuild_eq_zero_iff` says what is left: no symbols of different files are read as one, nor are any
of one file, and in no file a symbol comes back to an hour it has left.
-/

set_option autoImplicit false

namespace PostTrade

open Python Numbering DataTests

/-! ## The dimensions -/

/-- A row of `dim_symbol`. -/
@[ext] structure DimSymbol where
  symbol : Str
  exchange : Str
  deriving DecidableEq

/-- `dim_symbol`. -/
def dimSymbol (stg : List StgTick) : List DimSymbol :=
  (stg.map fun t ↦ { symbol := t.symbol, exchange := t.exchange }).dedup

/-- A row of `dim_date`. -/
structure DimDate where
  /-- In days since 1970. -/
  dateDay : ℤ
  year : ℕ
  month : ℕ
  day : ℕ
  dayOfWeek : ℤ
  deriving DecidableEq

/-- The parts of a date; the first of January 1970 was a Thursday. -/
def DimDate.ofDay (dateDay : ℤ) : DimDate where
  dateDay := dateDay
  year := (Datetime.ofOrdinal (dateDay + Datetime.epoch)).1
  month := (Datetime.ofOrdinal (dateDay + Datetime.epoch)).2.1
  day := (Datetime.ofOrdinal (dateDay + Datetime.epoch)).2.2
  dayOfWeek := (dateDay + 4) % 7

/-- `dim_date`. -/
def dimDate (stg : List StgTick) : List DimDate :=
  (stg.map fun t ↦ DimDate.ofDay t.tickDate).dedup

/-! ## The build -/

inductive Severity
  | error
  | warn
  deriving DecidableEq, Repr

/-- A test that has run: how severe it is, and how much it has found. -/
structure DataTest where
  severity : Severity
  failures : ℕ

/-- The tests of the project, in the order of its files. -/
def dataTests (localTime : Time → Time) (silver : List SilverRow) : List DataTest :=
  let stg := stgTicks localTime silver
  let fct := fctTicks stg
  let error {α : Type} (found : List α) : DataTest := ⟨.error, found.length⟩
  let warn {α : Type} (found : List α) : DataTest := ⟨.warn, found.length⟩
  [ -- `sources.yml`
    error (notNull (fun r ↦ some r.symbol) silver),
    error (notNull (fun r ↦ some r.sequence) silver),
    error (notNull (fun r ↦ some r.price) silver),
    warn (acceptedValues SilverRow.side ["buy".toList, "sell".toList] silver),
    -- `schema.yml`
    error (notNull (fun d ↦ some d.symbol) (dimSymbol stg)),
    error (unique (fun d ↦ some d.symbol) (dimSymbol stg)),
    error (notNull (fun d ↦ some d.dateDay) (dimDate stg)),
    error (unique (fun d ↦ some d.dateDay) (dimDate stg)),
    error (notNull (fun t ↦ some t.tickId) fct),
    error (unique (fun t ↦ some t.tickId) fct),
    error (notNull (fun t ↦ some t.symbol) fct),
    error (relationships (fun t ↦ some t.symbol) ((dimSymbol stg).map DimSymbol.symbol) fct),
    error (notNull (fun t ↦ some t.sequence) fct),
    error (notNull (fun t ↦ some t.price) fct),
    error (assertSequenceContiguousPerSymbolHour fct)]

/-- The exit code of `dbt build`. -/
def dbtBuild (readSymbol : List Str → Str → Str) (localTime : Time → Time) (lake : SilverLake) :
    ℕ :=
  if lake = [] then 1
  else if (dataTests localTime (lake.readParquet readSymbol).rows).any fun test ↦
    test.severity = .error && 0 < test.failures then 1
  else 0

/-- `build_gold_op`: the exit code in the error it raises. -/
def buildGoldOp (readSymbol : List Str → Str → Str) (localTime : Time → Time)
    (lake : SilverLake) : Except ℕ Unit :=
  let returncode := dbtBuild readSymbol localTime lake
  if returncode ≠ 0 then .error returncode else .ok ()

theorem buildGoldOp_eq_ok_iff {readSymbol : List Str → Str → Str} {localTime : Time → Time}
    {lake : SilverLake} : buildGoldOp readSymbol localTime lake = .ok () ↔
      dbtBuild readSymbol localTime lake = 0 := by
  rw [buildGoldOp]
  by_cases hzero : dbtBuild readSymbol localTime lake = 0
  · simp [hzero]
  · simp [hzero]

/-! ## What the tests find -/

/-- A number is printed the same way in the surrogate key. -/
theorem toList_repr (n : ℤ) : n.repr.toList = intText n := by
  cases n with
  | ofNat n =>
    rw [intText, if_neg (by simp), Int.repr, Nat.toList_repr]
    rfl
  | negSucc n =>
    rw [intText, if_pos (Int.negSucc_lt_zero n), Int.repr, String.toList_append, Nat.toList_repr]
    rfl

/-- Every symbol of the fact table has a row in `dim_symbol`. -/
theorem relationships_dimSymbol (localTime : Time → Time) (silver : List SilverRow) :
    relationships (fun t ↦ some t.symbol)
      ((dimSymbol (stgTicks localTime silver)).map DimSymbol.symbol)
      (fctTicks (stgTicks localTime silver)) = [] := by
  refine relationships_eq_nil_iff.mpr fun t ht symbol hsymbol ↦ ?_
  obtain ⟨t', ht', rfl⟩ := List.mem_map.mp ht
  cases hsymbol
  refine List.mem_map.mpr ⟨{ symbol := t'.symbol, exchange := t'.exchange }, ?_, rfl⟩
  exact List.mem_dedup.mpr (List.mem_map_of_mem ht')

/-- A date has one row in `dim_date`. -/
theorem unique_dimDate (stg : List StgTick) :
    unique (fun d : DimDate ↦ some d.dateDay) (dimDate stg) = [] := by
  rw [unique_some_eq_nil_iff]
  refine (List.nodup_dedup _).map_on fun d hd d' hd' hday ↦ ?_
  obtain ⟨t, -, rfl⟩ := List.mem_map.mp (List.mem_dedup.mp hd)
  obtain ⟨t', -, rfl⟩ := List.mem_map.mp (List.mem_dedup.mp hd')
  exact congrArg DimDate.ofDay hday

/-- A symbol has one row in `dim_symbol`, if all rows are of one exchange. -/
theorem unique_dimSymbol {localTime : Time → Time} {silver : List SilverRow} {exchange : Str}
    (h : ∀ row ∈ silver, row.exchange = exchange) :
    unique (fun d : DimSymbol ↦ some d.symbol) (dimSymbol (stgTicks localTime silver)) = [] := by
  have hexchange : ∀ d ∈ dimSymbol (stgTicks localTime silver), d.exchange = exchange := by
    intro d hd
    obtain ⟨t, ht, rfl⟩ := List.mem_map.mp (List.mem_dedup.mp hd)
    obtain ⟨row, hrow, rfl⟩ := List.mem_map.mp ht
    exact h row hrow
  rw [unique_some_eq_nil_iff]
  refine (List.nodup_dedup _).map_on fun d hd d' hd' hsymbol ↦ ?_
  have hsame : d.exchange = d'.exchange := (hexchange d hd).trans (hexchange d' hd').symm
  exact DimSymbol.ext hsymbol hsame

/-- The surrogate keys of the fact table are those of silver. -/
theorem map_tickId_fctTicks (localTime : Time → Time) (silver : List SilverRow) :
    (fctTicks (stgTicks localTime silver)).map FctTick.tickId = silver.map tickId := by
  rw [fctTicks, stgTicks, List.map_map, List.map_map]
  refine List.map_congr_left fun row _ ↦ ?_
  show row.symbol ++ '-' :: row.sequence.repr.toList = tickId row
  rw [toList_repr, tickId]

/-- **Which tests can fail**: with rows of one exchange, that for the surrogate key and that for
contiguity. -/
theorem dataTests_pass_iff {localTime : Time → Time} {silver : List SilverRow} {exchange : Str}
    (h : ∀ row ∈ silver, row.exchange = exchange) :
    (∀ test ∈ dataTests localTime silver, test.severity = .error → test.failures = 0) ↔
      (silver.map tickId).Nodup ∧
        assertSequenceContiguousPerSymbolHour (fctTicks (stgTicks localTime silver)) = [] := by
  simp only [dataTests, List.forall_mem_cons, notNull_some, unique_dimSymbol h, unique_dimDate,
    relationships_dimSymbol, List.length_eq_zero_iff, unique_some_eq_nil_iff, map_tickId_fctTicks,
    List.length_nil]
  simp

/-! ## Files of runs -/

/-- No two symbols of the file are read as one. -/
def SilverFile.ToldApart (readSymbol : List Str → Str → Str) (file : SilverFile) : Prop :=
  Set.InjOn (readSymbol file.path.dropLast) (keysOf SilverRow.symbol file.rows)

/-- No symbols of the two files are read as one. -/
def SilverFile.ReadApart (readSymbol : List Str → Str → Str) (f g : SilverFile) : Prop :=
  SymbolsApart (f.readParquet readSymbol) (g.readParquet readSymbol)

section Products

variable {readSymbol : List Str → Str → Str} {outputDir : List Str} {lake : SilverLake}
  {file f g : SilverFile}

theorem exists_of_mem_readParquet {row : SilverRow}
    (h : row ∈ (lake.readParquet readSymbol).rows) :
    ∃ file ∈ lake, ∃ written ∈ file.rows,
      written.readAs (readSymbol file.path.dropLast) = row := by
  obtain ⟨_, hread, hrow⟩ := List.mem_flatMap.mp h
  obtain ⟨file, hfile, rfl⟩ := List.mem_map.mp hread
  exact ⟨file, hfile, List.mem_map.mp hrow⟩

theorem rows_readParquet :
    (lake.readParquet readSymbol).rows = lake.flatMap fun file ↦
      (file.readParquet readSymbol).rows := by
  rw [SilverLake.readParquet, SilverLake.rows, List.flatMap_map]

/-- The rows of a file have different keys, as they are read, where its symbols are told apart. -/
theorem Product.nodup_readParquet_iff (h : Product outputDir file) :
    ((file.readParquet readSymbol).rows.map SilverRow.naturalKey).Nodup ↔
      file.ToldApart readSymbol := by
  rw [SilverFile.ToldApart, ← h.numbered.nodup_read_iff, SilverFile.readParquet, List.map_map]
  exact .rfl

/-- Files have no key in common, as they are read, where they have no symbol in common. -/
theorem disjoint_readParquet_iff (hf : Product outputDir f) (hg : Product outputDir g) :
    List.Disjoint ((f.readParquet readSymbol).rows.map SilverRow.naturalKey)
        ((g.readParquet readSymbol).rows.map SilverRow.naturalKey) ↔
      f.ReadApart readSymbol g := by
  have hdisjoint := hf.numbered.disjoint_read_iff hg.numbered (readSymbol f.path.dropLast)
    (readSymbol g.path.dropLast)
  rw [SilverFile.readParquet, SilverFile.readParquet, List.map_map, List.map_map]
  refine hdisjoint.trans (forall_congr' fun symbol ↦ not_congr ?_)
  simp only [SilverFile.readParquet, List.mem_map, exists_exists_and_eq_and]
  exact .rfl

/-- **When the natural key is unique in gold**. -/
theorem nodup_naturalKey_readParquet_iff (h : ∀ file ∈ lake, Product outputDir file) :
    ((lake.readParquet readSymbol).rows.map SilverRow.naturalKey).Nodup ↔
      lake.Pairwise (fun f g ↦ f.ReadApart readSymbol g) ∧
        ∀ file ∈ lake, file.ToldApart readSymbol := by
  rw [rows_readParquet, List.map_flatMap, List.nodup_flatMap, and_comm]
  refine and_congr (List.Pairwise.iff_of_mem fun {f g} hf hg ↦ ?_)
    (forall₂_congr fun file hfile ↦ ?_)
  · exact disjoint_readParquet_iff (h f hf) (h g hg)
  · exact (h file hfile).nodup_readParquet_iff

/-- Files with no symbol in common, as they are read, are tested for contiguity one by one. -/
theorem contiguityTest_eq_nil_iff (h : ∀ file ∈ lake, Product outputDir file)
    (hapart : lake.Pairwise fun f g ↦ f.ReadApart readSymbol g)
    (htold : ∀ file ∈ lake, file.ToldApart readSymbol) (localTime : Time → Time) :
    contiguityTest readSymbol localTime lake = [] ↔
      ∀ file ∈ lake, InTurn Prod.fst (file.rows.map (SilverRow.hour localTime)) := by
  have hsymbols : lake.Pairwise fun f g ↦ ∀ row ∈ (f.readParquet readSymbol).rows,
      ∀ row' ∈ (g.readParquet readSymbol).rows, row.symbol ≠ row'.symbol :=
    hapart.imp fun {f g} hfg row hrow row' hrow' heq ↦
      hfg row.symbol ⟨⟨row, hrow, rfl⟩, row', hrow', heq.symm⟩
  have hnumbered : Numbered SilverRow.symbol SilverRow.sequence
      (lake.readParquet readSymbol).rows := by
    rw [rows_readParquet]
    exact numbered_flatMap (fun file hfile ↦
      numbered_readAs (h file hfile).numbered (htold file hfile)) hsymbols
  rw [contiguityTest, assertSequenceContiguous_fctTicks, contiguousPerHour_iff hnumbered,
    rows_readParquet, List.map_flatMap, inTurn_flatMap]
  · exact forall₂_congr fun file hfile ↦ inTurn_readAs_iff (htold file hfile) localTime
  · refine hsymbols.imp fun {f g} hfg k hk k' hk' ↦ ?_
    obtain ⟨row, hrow, rfl⟩ := List.mem_map.mp hk
    obtain ⟨row', hrow', rfl⟩ := List.mem_map.mp hk'
    exact hfg row hrow row' hrow'

/-- **When the gold build succeeds** on files that runs of the transform have written: there are
some, no symbols of different files are read as one, nor are any of one file, and in no file a
symbol comes back to an hour it has left. -/
theorem dbtBuild_eq_zero_iff (h : ∀ file ∈ lake, Product outputDir file)
    (localTime : Time → Time) : dbtBuild readSymbol localTime lake = 0 ↔ lake ≠ [] ∧
      lake.Pairwise (fun f g ↦ f.ReadApart readSymbol g) ∧
      (∀ file ∈ lake, file.ToldApart readSymbol) ∧
      ∀ file ∈ lake, InTurn Prod.fst (file.rows.map (SilverRow.hour localTime)) := by
  have hexchange : ∀ row ∈ (lake.readParquet readSymbol).rows,
      row.exchange = Exchange.coinbase.value := by
    intro row hrow
    obtain ⟨file, hfile, written, hwritten, rfl⟩ := exists_of_mem_readParquet hrow
    obtain ⟨clock, line, hfrom⟩ := (h file hfile).madeFrom hwritten
    exact hfrom.exchange
  have hsequence : ∀ row ∈ (lake.readParquet readSymbol).rows, 0 ≤ row.sequence := by
    intro row hrow
    obtain ⟨file, hfile, written, hwritten, rfl⟩ := exists_of_mem_readParquet hrow
    have := one_le_sequence h (List.mem_flatMap.mpr ⟨file, hfile, hwritten⟩)
    exact Int.le_of_lt this
  have hcode : dbtBuild readSymbol localTime lake = 0 ↔ lake ≠ [] ∧
      ∀ test ∈ dataTests localTime (lake.readParquet readSymbol).rows,
        test.severity = .error → test.failures = 0 := by
    rw [dbtBuild]
    split
    · rename_i hnil
      simp [hnil]
    · rename_i hne
      simp [hne]
  rw [hcode, dataTests_pass_iff hexchange, nodup_tickId_iff hsequence,
    nodup_naturalKey_readParquet_iff h, and_assoc]
  exact and_congr_right fun _ ↦ and_congr_right fun hapart ↦ and_congr_right fun htold ↦
    contiguityTest_eq_nil_iff h hapart htold localTime

end Products

end PostTrade
