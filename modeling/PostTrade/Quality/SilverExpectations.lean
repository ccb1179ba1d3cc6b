import PostTrade.Lib.DataTests
import PostTrade.Silver.Products

/-!
# The quality suite of silver

`quality/silver_expectations.py`: `run_silver_quality_checks` reads the silver that a glob below
`silver_path` finds and validates it against ten expectations.

Of these, seven cannot be disappointed by what the transform writes.  The other three are about the
prices, the two times of a row, and the natural key; `runSilverQualityChecks_eq` says what the
result is, its counts included.

All of silver is found where `silver_path` is the output directory, has no special character of a
glob in it, and no directory of a partition looks like a file (`foundFiles_eq_self`).
-/

set_option autoImplicit false

namespace PostTrade

open Python Numbering DataTests

/-- What `run_silver_quality_checks` returns, but for the address of the data docs. -/
structure QualityCheckResult where
  success : Bool
  rowCount : ℕ
  evaluatedExpectations : ℕ
  successfulExpectations : ℕ
  unsuccessfulExpectations : ℕ
  deriving DecidableEq, Repr

/-- `_build_suite`. -/
def buildSuite : List (List SilverRow → Bool) :=
  [ columnValuesToNotBeNull fun r ↦ some r.symbol,
    columnValuesToNotBeNull fun r ↦ some r.sequence,
    columnValuesToNotBeNull fun r ↦ some r.price,
    columnValuesToNotBeNull fun r ↦ some r.exchangeTimestamp,
    columnValuesToNotBeNull fun r ↦ some r.ingestTimestamp,
    columnValuesToBeBetween (fun r ↦ some r.price) (some 0) (some 10000000),
    columnValuesToBeBetween (fun r ↦ some r.sequence) (some 1) none,
    columnValuesToBeInSet SilverRow.side ["buy".toList, "sell".toList],
    columnPairValuesAToBeGreaterThanB
      (fun r ↦ some r.ingestTimestamp) (fun r ↦ some r.exchangeTimestamp),
    compoundColumnsToBeUnique fun r ↦ some (r.symbol, r.sequence)]

/-- The files that are read: `pd.read_parquet` of a directory reads all files in it. -/
def foundFiles (silverPath : List Str) (lake : SilverLake) : SilverLake :=
  lake.flatMap fun file ↦ List.replicate (Glob.timesReached
    (silverPath ++ ["ticks".toList, "**".toList, "*.parquet".toList]) file.path) file

/-- `_load_silver_dataframe`. -/
def loadSilverDataframe (silverPath : List Str) (lake : SilverLake) : List SilverRow :=
  (foundFiles silverPath lake).rows

/-- `run_silver_quality_checks`. -/
def runSilverQualityChecks (silverPath : List Str) (lake : SilverLake) : QualityCheckResult :=
  let df := loadSilverDataframe silverPath lake
  if df = [] then {
    success := false
    rowCount := 0
    evaluatedExpectations := 0
    successfulExpectations := 0
    unsuccessfulExpectations := 0 }
  else
    let results := buildSuite.map fun expectation ↦ expectation df
    { success := results.all id
      rowCount := df.length
      evaluatedExpectations := results.length
      successfulExpectations := results.count true
      unsuccessfulExpectations := results.count false }

/-! ## What is found -/

theorem mem_of_mem_foundFiles {silverPath : List Str} {lake : SilverLake} {file : SilverFile}
    (h : file ∈ foundFiles silverPath lake) : file ∈ lake := by
  obtain ⟨file', hfile', hmem⟩ := List.mem_flatMap.mp h
  exact List.eq_of_mem_replicate hmem ▸ hfile'

/-- No directory of the partition is named like a file. -/
def NoFileNames (p : Partition) : Prop :=
  ∀ dir ∈ ["symbol=".toList ++ p.1, "date=".toList ++ p.2], ¬ ".parquet".toList <:+ dir

instance (p : Partition) : Decidable (NoFileNames p) := by
  unfold NoFileNames
  infer_instance

/-- The file of a run is found once. -/
theorem timesReached_outPath {outputDir : List Str} (houtput : ∀ dir ∈ outputDir, Glob.Plain dir)
    {m : Materialization} (hdirs : NoFileNames m.partition) :
    Glob.timesReached (outputDir ++ ["ticks".toList, "**".toList, "*.parquet".toList])
      (m.outPath outputDir) = 1 := by
  have hplain : ∀ dir ∈ outputDir ++ ["ticks".toList], Glob.Plain dir := by
    intro dir hdir
    rcases List.mem_append.mp hdir with hdir | hdir
    · exact houtput dir hdir
    · obtain rfl := List.mem_singleton.mp hdir
      decide
  have hbelow : Glob.timesReached ["**".toList, '*' :: ".parquet".toList]
      (["symbol=".toList ++ m.partition.1, "date=".toList ++ m.partition.2] ++
        ["part-".toList ++ m.uuid ++ ".parquet".toList]) = 1 := by
    refine Glob.timesReached_below (by decide) (fun dir hdir ↦ ⟨?_, hdirs dir hdir⟩)
      ⟨by simp, List.suffix_append _ _⟩
    rcases List.mem_cons.mp hdir with rfl | hdir
    · simp
    · obtain rfl := List.mem_singleton.mp hdir
      simp
  have hstar : "*.parquet".toList = '*' :: ".parquet".toList := rfl
  have hreached := Glob.timesReached_append hplain ["**".toList, '*' :: ".parquet".toList]
    (["symbol=".toList ++ m.partition.1, "date=".toList ++ m.partition.2] ++
      ["part-".toList ++ m.uuid ++ ".parquet".toList])
  rw [hbelow, List.append_assoc, List.append_assoc] at hreached
  rw [Materialization.outPath, partitionDir, List.append_assoc, hstar]
  exact hreached

/-- **Where all of silver is found**, and once. -/
theorem foundFiles_eq_self {outputDir : List Str} (houtput : ∀ dir ∈ outputDir, Glob.Plain dir)
    {lake : SilverLake} (h : ∀ file ∈ lake, Product outputDir file)
    (hdirs : ∀ file ∈ lake, ∀ p, file.path.dropLast = partitionDir outputDir p → NoFileNames p) :
    foundFiles outputDir lake = lake := by
  have honce : ∀ file ∈ lake, List.replicate (Glob.timesReached
      (outputDir ++ ["ticks".toList, "**".toList, "*.parquet".toList]) file.path) file =
        [file] := by
    intro file hfile
    obtain ⟨bucket, m, -, -, hpath⟩ := h file hfile
    have hpartition : NoFileNames m.partition :=
      hdirs file hfile m.partition (by rw [hpath, dropLast_outPath])
    rw [hpath, timesReached_outPath houtput hpartition, List.replicate_one]
  rw [foundFiles, List.flatMap_congr honce, List.flatMap_singleton']

/-! ## What can be found wrong -/

/-- The prices are between zero and ten million. -/
def SanePrices (rows : List SilverRow) : Prop := ∀ row ∈ rows, 0 ≤ row.price ∧ row.price ≤ 10000000

/-- No row was ingested before the exchange sent it. -/
def ClocksAgree (rows : List SilverRow) : Prop :=
  ∀ row ∈ rows, row.exchangeTimestamp ≤ row.ingestTimestamp

instance (rows : List SilverRow) : Decidable (SanePrices rows) := by
  unfold SanePrices
  infer_instance

instance (rows : List SilverRow) : Decidable (ClocksAgree rows) := by
  unfold ClocksAgree
  infer_instance

/-- The results of the expectations, where rows are numbered from one on and have one of the two
sides or none. -/
theorem map_buildSuite {rows : List SilverRow} (hsequence : ∀ row ∈ rows, 1 ≤ row.sequence)
    (hside : ∀ row ∈ rows, ∀ side ∈ row.side, side ∈ [Side.buy.value, Side.sell.value]) :
    (buildSuite.map fun expectation ↦ expectation rows) =
      [true, true, true, true, true, decide (SanePrices rows), true, true,
        decide (ClocksAgree rows), decide (rows.map SilverRow.naturalKey).Nodup] := by
  have hprices : columnValuesToBeBetween (fun r : SilverRow ↦ some r.price) (some 0)
      (some 10000000) rows = decide (SanePrices rows) := by
    rw [Bool.eq_iff_iff, decide_eq_true_eq, columnValuesToBeBetween_iff]
    exact forall₂_congr fun row _ ↦ by simp
  have hnumbers : columnValuesToBeBetween (fun r : SilverRow ↦ some r.sequence) (some 1) none rows
      = true := by
    rw [columnValuesToBeBetween_iff]
    exact fun row hrow ↦ by simpa using hsequence row hrow
  have hsides : columnValuesToBeInSet SilverRow.side ["buy".toList, "sell".toList] rows = true :=
    columnValuesToBeInSet_iff.mpr hside
  have hclocks : columnPairValuesAToBeGreaterThanB (fun r : SilverRow ↦ some r.ingestTimestamp)
      (fun r ↦ some r.exchangeTimestamp) rows = decide (ClocksAgree rows) := by
    rw [Bool.eq_iff_iff, decide_eq_true_eq, columnPairValuesAToBeGreaterThanB_some_iff]
    exact .rfl
  have hkeys : compoundColumnsToBeUnique (fun r : SilverRow ↦ some (r.symbol, r.sequence)) rows
      = decide (rows.map SilverRow.naturalKey).Nodup := by
    rw [Bool.eq_iff_iff, decide_eq_true_eq, compoundColumnsToBeUnique_some_iff]
    exact .rfl
  simp only [buildSuite, List.map_cons, List.map_nil, columnValuesToNotBeNull_some, hprices,
    hnumbers, hsides, hclocks, hkeys]

/-- **What the quality checks return** on files that runs of the transform have written.  They
succeed where the prices are sane, no row was ingested before it was sent, and no two files have a
symbol in common; of the ten expectations those of these three fail that are not met. -/
theorem runSilverQualityChecks_eq {silverPath outputDir : List Str} {lake found : SilverLake}
    (hfound : foundFiles silverPath lake = found) (h : ∀ file ∈ found, Product outputDir file)
    (hne : found ≠ []) :
    ∃ sane clocked keyed : Bool, (sane = true ↔ SanePrices found.rows) ∧
      (clocked = true ↔ ClocksAgree found.rows) ∧ (keyed = true ↔ found.Pairwise SymbolsApart) ∧
      runSilverQualityChecks silverPath lake = {
        success := sane && clocked && keyed
        rowCount := found.rows.length
        evaluatedExpectations := 10
        successfulExpectations := 7 + [sane, clocked, keyed].count true
        unsuccessfulExpectations := [sane, clocked, keyed].count false } := by
  have hrows : found.rows ≠ [] := by
    obtain ⟨file, hfile⟩ := List.exists_mem_of_ne_nil _ hne
    obtain ⟨row, hrow⟩ := List.exists_mem_of_ne_nil _ (h file hfile).rows_ne_nil
    exact List.ne_nil_of_mem (List.mem_flatMap.mpr ⟨file, hfile, hrow⟩)
  have hside : ∀ row ∈ found.rows, ∀ side ∈ row.side, side ∈ [Side.buy.value, Side.sell.value] := by
    intro row hrow
    obtain ⟨file, hfile, hrow⟩ := List.mem_flatMap.mp hrow
    obtain ⟨clock, line, hfrom⟩ := (h file hfile).madeFrom hrow
    exact hfrom.side
  refine ⟨decide (SanePrices found.rows), decide (ClocksAgree found.rows),
    decide (found.rows.map SilverRow.naturalKey).Nodup, decide_eq_true_iff, decide_eq_true_iff,
    ?_, ?_⟩
  · rw [decide_eq_true_iff, nodup_naturalKey_rows_iff h]
  · rw [runSilverQualityChecks, loadSilverDataframe, hfound, if_neg hrows,
      map_buildSuite (fun row ↦ one_le_sequence h) hside]
    generalize decide (SanePrices found.rows) = sane
    generalize decide (ClocksAgree found.rows) = clocked
    generalize decide (found.rows.map SilverRow.naturalKey).Nodup = keyed
    cases sane <;> cases clocked <;> cases keyed <;> rfl

end PostTrade
