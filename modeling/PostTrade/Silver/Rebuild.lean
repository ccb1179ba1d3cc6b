import PostTrade.Silver.Transform

/-!
# What a rebuild writes

`rebuild` is the rows that a run of the transform gets out of the bronze lines of its partition,
without the lake.  A run that completes clears the partition in the lake and adds these rows in a
new file (`transformSymbolDate_ok`).

The counters start afresh in every run, so the rows of a rebuild are numbered from one on for every
symbol (`numbered_rebuild`).  Which symbols they are of is a question about the lines alone: those
of the ticks that the lines would normalize to at any time (`acceptedSymbol`).
-/

set_option autoImplicit false

namespace PostTrade

open Python Numbering

/-- The rows of a run. -/
def rebuild (bucket : Bucket) (m : Materialization) : Except TransformError (List SilverRow) := do
  let rawLines ← bronzeLines bucket m.partition
  let normalized ← normalizeLines m.clock (fun _ ↦ 0) (dedupLines [] rawLines).1
  normalized.1.mapM silverRow

/-- The file of the rows; there is none where there are no rows. -/
def newFiles (outputDir : List Str) (m : Materialization) (rows : List SilverRow) : SilverLake :=
  if rows = [] then [] else [{ path := m.outPath outputDir, rows }]

/-- The symbol of the tick a line normalizes to. -/
def acceptedSymbol (line : Str) : Option Str :=
  match Json.loads line with
  | .ok (.dict data) =>
    match (normalize (fun _ ↦ 0) data (Json.get data "type".toList) 0 0).1 with
    | .ok (some tick) => some tick.symbol
    | _ => none
  | _ => none

/-! ## The ticks of the lines -/

/-- What a line that does not raise is: no JSON at all, or a dictionary that `normalize` takes. -/
theorem normalizeLine_ok {clock : Str → Time × Time} {sequences sequences' : Str → ℕ} {line : Str}
    {tick : Option Tick} (h : normalizeLine clock sequences line = (.ok tick, sequences')) :
    (Json.loads line = .error .decodeError ∧ tick = none ∧ sequences' = sequences) ∨
      ∃ data, Json.loads line = .ok (.dict data) ∧
        normalize sequences data (Json.get data "type".toList) (clock line).1 (clock line).2
          = (.ok tick, sequences') := by
  rw [normalizeLine] at h
  split at h
  · rename_i hloads
    cases h
    exact .inl ⟨hloads, rfl, rfl⟩
  · cases h
  · rename_i data hloads
    refine .inr ⟨data, hloads, ?_⟩
    dsimp only at h
    cases hnormalize : normalize sequences data (Json.get data "type".toList) (clock line).1
      (clock line).2 with
    | mk result sequences₁ =>
      rw [hnormalize] at h
      cases result with
      | error e => cases h
      | ok returned =>
        cases h
        rfl
  · cases h

/-- A line is worth a tick of a symbol exactly when normalizing it, where that does not raise,
returns one. -/
theorem acceptedSymbol_eq {clock : Str → Time × Time} {sequences sequences' : Str → ℕ} {line : Str}
    {tick : Option Tick} (h : normalizeLine clock sequences line = (.ok tick, sequences')) :
    acceptedSymbol line = tick.map Tick.symbol := by
  rw [acceptedSymbol]
  rcases normalizeLine_ok h with ⟨hloads, rfl, -⟩ | ⟨data, hloads, hnormalize⟩
  · rw [hloads]
    rfl
  · rw [hloads]
    dsimp only
    cases tick with
    | some tick =>
      obtain ⟨t', heq, -⟩ := normalize_eq hnormalize (fun _ ↦ 0) 0 0
      rw [heq]
      rfl
    | none =>
      split
      · rename_i tick' hok
        exact absurd hok (normalize_ne_some hnormalize _ _ _ tick')
      · rfl

/-- The ticks of the lines continue a numbered log whose counters they start from. -/
theorem numbered_normalizeLines {clock : Str → Time × Time} {lines : List Str}
    {sequences : Str → ℕ} {log ticks : List Tick} {failures : ℕ}
    (h : normalizeLines clock sequences lines = .ok (ticks, failures))
    (hlog : Numbered Tick.symbol Tick.sequence log) (hcounts : Counts Tick.symbol sequences log) :
    Numbered Tick.symbol Tick.sequence (log ++ ticks) := by
  induction lines generalizing sequences log ticks failures with
  | nil =>
    cases h
    rwa [List.append_nil]
  | cons line rest ih =>
    rw [normalizeLines] at h
    split at h
    · cases h
    · rename_i sequences' hline
      have hsame : sequences' = sequences := by
        rcases normalizeLine_ok hline with ⟨-, -, hsame⟩ | ⟨data, -, hnormalize⟩
        · exact hsame
        · exact normalize_none hnormalize
      obtain ⟨⟨ticks', failures'⟩, hrest, heq⟩ := map_eq_ok.mp h
      cases heq
      exact ih hrest hlog (hsame ▸ hcounts)
    · rename_i tick sequences' hline
      obtain ⟨data, -, hnormalize⟩ := (normalizeLine_ok hline).resolve_left
        (by rintro ⟨-, h, -⟩; cases h)
      obtain ⟨hsequence, rfl⟩ := normalize_ok hnormalize
      obtain ⟨⟨ticks', failures'⟩, hrest, heq⟩ := map_eq_ok.mp h
      cases heq
      rw [List.append_cons]
      exact ih hrest (hlog.concat (by rw [hsequence, hcounts])) (hcounts.concat tick)

/-- The symbols of the ticks are those the lines are worth. -/
theorem symbols_normalizeLines {clock : Str → Time × Time} {lines : List Str}
    {sequences : Str → ℕ} {ticks : List Tick} {failures : ℕ}
    (h : normalizeLines clock sequences lines = .ok (ticks, failures)) :
    ticks.map Tick.symbol = lines.filterMap acceptedSymbol := by
  induction lines generalizing sequences ticks failures with
  | nil =>
    cases h
    rfl
  | cons line rest ih =>
    rw [normalizeLines] at h
    split at h
    · cases h
    · rename_i sequences' hline
      obtain ⟨⟨ticks', failures'⟩, hrest, heq⟩ := map_eq_ok.mp h
      cases heq
      rw [List.filterMap_cons_none (acceptedSymbol_eq hline)]
      exact ih hrest
    · rename_i tick sequences' hline
      obtain ⟨⟨ticks', failures'⟩, hrest, heq⟩ := map_eq_ok.mp h
      cases heq
      rw [List.filterMap_cons_some (acceptedSymbol_eq hline), List.map_cons, ih hrest]

/-! ## The rows of a run -/

/-- The key of a row. -/
def SilverRow.naturalKey (row : SilverRow) : Str × ℤ := (row.symbol, row.sequence)

theorem naturalKey_silverRow {tick : Tick} {row : SilverRow} (h : silverRow tick = .ok row) :
    row.naturalKey = (tick.symbol, tick.sequence) := by
  obtain ⟨rfl, -⟩ := silverRow_ok h
  rfl

/-- The table has a row for every tick, with its symbol and its number. -/
theorem map_naturalKey_mapM {ticks : List Tick} {rows : List SilverRow}
    (h : ticks.mapM silverRow = .ok rows) :
    rows.map SilverRow.naturalKey = ticks.map fun tick ↦ (tick.symbol, tick.sequence) := by
  induction ticks generalizing rows with
  | nil =>
    cases h
    rfl
  | cons tick rest ih =>
    rw [List.mapM_cons] at h
    obtain ⟨row, hrow, h⟩ := bind_eq_ok.mp h
    obtain ⟨rows', hrows, h⟩ := bind_eq_ok.mp h
    cases h
    rw [List.map_cons, List.map_cons, naturalKey_silverRow hrow, ih hrows]

/-- **The rows of a run**: numbered from one on, and of the symbols its lines are worth. -/
theorem rebuild_ok {bucket : Bucket} {m : Materialization} {rows : List SilverRow}
    (h : rebuild bucket m = .ok rows) :
    Numbered SilverRow.symbol SilverRow.sequence rows ∧
      ∃ lines, bronzeLines bucket m.partition = .ok lines ∧
        rows.map SilverRow.symbol = (dedupLines [] lines).1.filterMap acceptedSymbol := by
  obtain ⟨lines, hlines, h⟩ := bind_eq_ok.mp h
  obtain ⟨⟨ticks, failures⟩, hticks, h⟩ := bind_eq_ok.mp h
  have hkeys := map_naturalKey_mapM h
  constructor
  · have hnumbered := numbered_normalizeLines hticks .nil .nil
    rw [List.nil_append, ← numbered_map_iff, ← hkeys] at hnumbered
    exact numbered_map_iff.mp hnumbered
  · refine ⟨lines, hlines, ?_⟩
    have hsymbols := congrArg (List.map Prod.fst) hkeys
    rw [List.map_map, List.map_map] at hsymbols
    rw [← symbols_normalizeLines hticks]
    exact hsymbols

/-- The lines without repetitions are those that occur. -/
theorem mem_dedupLines {seen lines : List Str} {line : Str} :
    line ∈ (dedupLines seen lines).1 ↔ line ∈ lines ∧ line ∉ seen := by
  induction lines generalizing seen with
  | nil => simp [dedupLines]
  | cons l rest ih =>
    rw [dedupLines]
    split
    · rename_i hl
      simp only [ih, List.mem_cons]
      constructor
      · exact fun h ↦ ⟨.inr h.1, h.2⟩
      · rintro ⟨rfl | h, hseen⟩
        · exact absurd hl hseen
        · exact ⟨h, hseen⟩
    · rename_i hl
      simp only [ih, List.mem_cons, not_or]
      constructor
      · rintro (rfl | ⟨h, -, hseen⟩)
        · exact ⟨.inl rfl, hl⟩
        · exact ⟨.inr h, hseen⟩
      · rintro ⟨rfl | h, hseen⟩
        · exact .inl rfl
        · by_cases heq : line = l
          · exact .inl heq
          · exact .inr ⟨h, heq, hseen⟩

/-! ## A run that completes -/

theorem rebuild_eq {bucket : Bucket} {m : Materialization} {lines : List Str}
    {normalized : List Tick × ℕ} (hlines : bronzeLines bucket m.partition = .ok lines)
    (hnormalized : normalizeLines m.clock (fun _ ↦ 0) (dedupLines [] lines).1 = .ok normalized) :
    rebuild bucket m = normalized.1.mapM silverRow := by
  simp only [rebuild, hlines, bind, Except.bind, hnormalized]

/-- **A run that completes** clears its partition and adds its rows in a new file. -/
theorem transformSymbolDate_ok {bucket : Bucket} {outputDir : List Str} {lake lake' : SilverLake}
    {m : Materialization} {result : SilverTransformResult}
    (h : transformSymbolDate bucket outputDir lake m = (.ok result, lake')) :
    ∃ rows, rebuild bucket m = .ok rows ∧
      lake' = clearPartition outputDir m.partition lake ++ newFiles outputDir m rows := by
  rw [transformSymbolDate] at h
  split at h
  · cases h
  · rename_i lines hlines
    dsimp only at h
    split at h
    · cases h
    · rename_i ticks failures hticks
      rw [rebuild_eq hlines hticks]
      split at h
      · rename_i hnil
        subst hnil
        cases h
        exact ⟨[], rfl, by rw [newFiles, if_pos rfl, List.append_nil]⟩
      · rename_i hticksNil
        split at h
        · cases h
        · rename_i rows hrows
          have hnil : rows ≠ [] := by
            rintro rfl
            exact hticksNil (List.map_eq_nil_iff.mp (map_naturalKey_mapM hrows).symm)
          cases h
          exact ⟨rows, hrows, by rw [newFiles, if_neg hnil]⟩

/-- A run that gets its rows completes, with the lines it dropped, failed on and made rows of. -/
theorem transformSymbolDate_eq {bucket : Bucket} {m : Materialization} {lines : List Str}
    {ticks : List Tick} {failures : ℕ} {rows : List SilverRow}
    (hlines : bronzeLines bucket m.partition = .ok lines)
    (hticks : normalizeLines m.clock (fun _ ↦ 0) (dedupLines [] lines).1 = .ok (ticks, failures))
    (hrows : ticks.mapM silverRow = .ok rows) (outputDir : List Str) (lake : SilverLake) :
    ∃ outputFiles, transformSymbolDate bucket outputDir lake m = (.ok {
        symbol := m.symbol
        date := m.date
        linesRead := lines.length
        duplicatesDropped := (dedupLines [] lines).2
        normalizationFailures := failures
        rowsWritten := ticks.length
        outputFiles },
      clearPartition outputDir m.partition lake ++ newFiles outputDir m rows) := by
  have hkeys := map_naturalKey_mapM hrows
  simp only [transformSymbolDate, hlines, hticks]
  split
  · rename_i hnil
    subst hnil
    rw [newFiles, if_pos (List.map_eq_nil_iff.mp hkeys), List.append_nil]
    exact ⟨_, rfl⟩
  · rename_i hnil
    have hne : rows ≠ [] := by
      rintro rfl
      exact hnil (List.map_eq_nil_iff.mp hkeys.symm)
    rw [hrows, newFiles, if_neg hne]
    exact ⟨_, rfl⟩

/-- A run that gets its rows completes. -/
theorem transformSymbolDate_of_rebuild {bucket : Bucket} {m : Materialization}
    {rows : List SilverRow} (h : rebuild bucket m = .ok rows) (outputDir : List Str)
    (lake : SilverLake) : ∃ result, transformSymbolDate bucket outputDir lake m =
      (.ok result, clearPartition outputDir m.partition lake ++ newFiles outputDir m rows) := by
  obtain ⟨lines, hlines, h⟩ := bind_eq_ok.mp h
  obtain ⟨⟨ticks, failures⟩, hticks, h⟩ := bind_eq_ok.mp h
  obtain ⟨outputFiles, heq⟩ := transformSymbolDate_eq hlines hticks h outputDir lake
  exact ⟨_, heq⟩

/-- The lake after a run that gets its rows. -/
theorem snd_transformSymbolDate {bucket : Bucket} {m : Materialization} {rows : List SilverRow}
    (h : rebuild bucket m = .ok rows) (outputDir : List Str) (lake : SilverLake) :
    (transformSymbolDate bucket outputDir lake m).2 =
      clearPartition outputDir m.partition lake ++ newFiles outputDir m rows := by
  obtain ⟨result, hresult⟩ := transformSymbolDate_of_rebuild h outputDir lake
  rw [hresult]

/-- What a run does depends on its own lines only. -/
theorem transformSymbolDate_congr {b b' : Bucket} {m : Materialization}
    (h : bronzeLines b m.partition = bronzeLines b' m.partition) (outputDir : List Str)
    (lake : SilverLake) :
    transformSymbolDate b outputDir lake m = transformSymbolDate b' outputDir lake m := by
  rw [transformSymbolDate, transformSymbolDate, h]

theorem rows_newFiles (outputDir : List Str) (m : Materialization) (rows : List SilverRow) :
    SilverLake.rows (newFiles outputDir m rows) = rows := by
  rw [newFiles]
  split
  · rename_i hnil
    exact hnil.symm
  · exact List.append_nil rows

theorem path_of_mem_newFiles {outputDir : List Str} {m : Materialization} {rows : List SilverRow}
    {file : SilverFile} (h : file ∈ newFiles outputDir m rows) :
    file.path = m.outPath outputDir := by
  rw [newFiles] at h
  split at h
  · cases h
  · rw [List.mem_singleton.mp h]

/-- One run of the transform after the other; none of them raises. -/
def runTransforms (bucket : Bucket) (outputDir : List Str) :
    SilverLake → List Materialization → Except TransformError SilverLake
  | lake, [] => .ok lake
  | lake, m :: rest =>
    match transformSymbolDate bucket outputDir lake m with
    | (.error e, _) => .error e
    | (.ok _, lake) => runTransforms bucket outputDir lake rest

/-! ## Plain names -/

/-- The name of a partition has no special character of a glob in it. -/
def PlainPartition (p : Partition) : Prop := Glob.Plain p.1 ∧ Glob.Plain p.2

theorem matchComponent_part (uuid : Str) : Glob.matchComponent "*.parquet".toList
    ("part-".toList ++ uuid ++ ".parquet".toList) = true := by
  rw [Glob.matchComponent, Bool.and_eq_true]
  exact ⟨(Glob.fnmatch_star (by decide)).mpr (List.suffix_append _ _), rfl⟩

/-- The components of a path below the output directory, and those of the glob of a partition. -/
theorem matchPath_partition_iff {p : Partition} (hp : PlainPartition p) (m : Materialization) :
    Glob.matchPath (partitionDir [] p ++ ["*.parquet".toList]) (m.outPath []) = true ↔
      p = m.partition := by
  have hticks : Glob.matchComponent "ticks".toList "ticks".toList = true :=
    (Glob.matchComponent_of_plain (by decide)).mpr rfl
  have hsymbol : Glob.Plain ("symbol=".toList ++ p.1) := .append (by decide) hp.1
  have hdate : Glob.Plain ("date=".toList ++ p.2) := .append (by decide) hp.2
  simp only [Materialization.outPath, partitionDir, List.cons_append, List.nil_append,
    Glob.matchPath_cons, Bool.and_eq_true, matchComponent_part, hticks,
    Glob.matchComponent_of_plain hsymbol, Glob.matchComponent_of_plain hdate, Glob.matchPath_nil,
    List.append_cancel_left_eq, true_and, and_true]
  rw [Prod.ext_iff, eq_comm, eq_comm (a := m.partition.2)]

theorem finds_outPath (outputDir : List Str) (p : Partition) (m : Materialization) :
    finds outputDir p (m.outPath outputDir) =
      Glob.matchPath (outputDir ++ (partitionDir [] p ++ ["*.parquet".toList]))
        (outputDir ++ m.outPath []) := by
  simp only [finds, Materialization.outPath, partitionDir, List.append_assoc, List.nil_append]

/-- Whatever the names, the glob of a partition finds all files of its own or none of them: it
depends on whether its directory, read as a pattern, matches itself. -/
theorem finds_own {outputDir : List Str} {p : Partition} {m : Materialization}
    (h : m.partition = p) : finds outputDir p (m.outPath outputDir) =
      Glob.matchPath (partitionDir outputDir p) (partitionDir outputDir p) := by
  rw [finds, Materialization.outPath, h, Glob.matchPath_concat, matchComponent_part,
    Bool.and_true]

/-- With plain names the glob of a partition finds the files of no other one. -/
theorem partition_eq_of_finds {outputDir : List Str} {p : Partition} (hp : PlainPartition p)
    {m : Materialization} (h : finds outputDir p (m.outPath outputDir) = true) :
    p = m.partition := by
  rw [finds_outPath] at h
  exact (matchPath_partition_iff hp m).mp (Glob.matchPath_of_append h)

/-- In a plain directory it finds all files of its own. -/
theorem finds_outPath_iff {outputDir : List Str} (houtput : ∀ dir ∈ outputDir, Glob.Plain dir)
    {p : Partition} (hp : PlainPartition p) (m : Materialization) :
    finds outputDir p (m.outPath outputDir) = true ↔ p = m.partition := by
  rw [finds_outPath, Glob.matchPath_append houtput]
  exact matchPath_partition_iff hp m

/-! ## The files of one partition -/

/-- The files in the directory of a partition. -/
def partitionFiles (outputDir : List Str) (p : Partition) (lake : SilverLake) : SilverLake :=
  lake.filter fun file ↦ file.path.dropLast = partitionDir outputDir p

/-- Every file of the lake was written by a run of the transform. -/
def Written (outputDir : List Str) (lake : SilverLake) : Prop :=
  ∀ file ∈ lake, ∃ m : Materialization, file.path = m.outPath outputDir

theorem written_nil (outputDir : List Str) : Written outputDir [] :=
  fun _ hfile ↦ nomatch hfile

theorem partitionDir_inj {outputDir : List Str} {p q : Partition} :
    partitionDir outputDir p = partitionDir outputDir q ↔ p = q := by
  rw [partitionDir, partitionDir, List.append_cancel_left_eq, Prod.ext_iff]
  simp only [List.cons.injEq, List.append_cancel_left_eq, true_and, and_true]

theorem dropLast_outPath (outputDir : List Str) (m : Materialization) :
    (m.outPath outputDir).dropLast = partitionDir outputDir m.partition := by
  rw [Materialization.outPath, List.dropLast_concat]

theorem outPath_inj {outputDir : List Str} {m m' : Materialization}
    (h : m.outPath outputDir = m'.outPath outputDir) :
    m.partition = m'.partition ∧ m.uuid = m'.uuid := by
  obtain ⟨hdir, hname⟩ := List.append_inj' h rfl
  rw [List.singleton_inj, List.append_cancel_right_eq, List.append_cancel_left_eq] at hname
  exact ⟨partitionDir_inj.mp hdir, hname⟩

theorem Written.clearPartition {outputDir : List Str} {lake : SilverLake}
    (h : Written outputDir lake) (p : Partition) :
    Written outputDir (clearPartition outputDir p lake) :=
  fun file hfile ↦ h file (List.mem_of_mem_filter hfile)

theorem Written.append_newFiles {outputDir : List Str} {lake : SilverLake}
    (h : Written outputDir lake) (m : Materialization) (rows : List SilverRow) :
    Written outputDir (lake ++ newFiles outputDir m rows) := by
  intro file hfile
  rcases List.mem_append.mp hfile with hfile | hfile
  · exact h file hfile
  · exact ⟨m, path_of_mem_newFiles hfile⟩

theorem partitionFiles_append (outputDir : List Str) (p : Partition) (lake files : SilverLake) :
    partitionFiles outputDir p (lake ++ files) =
      partitionFiles outputDir p lake ++ partitionFiles outputDir p files := List.filter_append ..

theorem partitionFiles_newFiles (outputDir : List Str) (p : Partition) (m : Materialization)
    (rows : List SilverRow) : partitionFiles outputDir p (newFiles outputDir m rows) =
      if m.partition = p then newFiles outputDir m rows else [] := by
  have hdir : ∀ file ∈ newFiles outputDir m rows,
      decide (file.path.dropLast = partitionDir outputDir p) = decide (m.partition = p) := by
    intro file hfile
    rw [path_of_mem_newFiles hfile, dropLast_outPath, decide_eq_decide, partitionDir_inj]
  rw [partitionFiles, List.filter_congr hdir]
  by_cases h : m.partition = p
  · simp [h]
  · simp [h]

/-- With plain names clearing a partition leaves the files of the others. -/
theorem partitionFiles_clearPartition {outputDir : List Str} {lake : SilverLake}
    (hlake : Written outputDir lake) {p q : Partition} (hq : PlainPartition q) (hne : q ≠ p) :
    partitionFiles outputDir p (clearPartition outputDir q lake) =
      partitionFiles outputDir p lake := by
  rw [partitionFiles, clearPartition, List.filter_filter]
  refine List.filter_congr fun file hfile ↦ ?_
  obtain ⟨m, hm⟩ := hlake file hfile
  by_cases hp : m.partition = p
  · have hfinds : finds outputDir q file.path = false := by
      rw [hm, ← Bool.not_eq_true]
      exact fun h ↦ hne ((partition_eq_of_finds hq h).trans hp)
    rw [hfinds, Bool.not_false, Bool.and_true]
  · have hdir : ¬ file.path.dropLast = partitionDir outputDir p := by
      rw [hm, dropLast_outPath, partitionDir_inj]
      exact hp
    rw [decide_eq_false hdir, Bool.false_and]

theorem finds_of_mem_partitionFiles {outputDir : List Str} {lake : SilverLake}
    (hlake : Written outputDir lake) {p : Partition} {file : SilverFile}
    (h : file ∈ partitionFiles outputDir p lake) : finds outputDir p file.path =
      Glob.matchPath (partitionDir outputDir p) (partitionDir outputDir p) := by
  obtain ⟨hfile, hdir⟩ := List.mem_filter.mp h
  obtain ⟨m, hm⟩ := hlake file hfile
  have hown : m.partition = p := by
    rw [hm, dropLast_outPath] at hdir
    exact partitionDir_inj.mp (of_decide_eq_true hdir)
  rw [hm, finds_own hown]

/-- A glob that finds the files of its own partition leaves none of them. -/
theorem partitionFiles_clearPartition_self {outputDir : List Str} {lake : SilverLake}
    (hlake : Written outputDir lake) {p : Partition}
    (hself : Glob.matchPath (partitionDir outputDir p) (partitionDir outputDir p) = true) :
    partitionFiles outputDir p (clearPartition outputDir p lake) = [] := by
  refine List.eq_nil_iff_forall_not_mem.mpr fun file hfile ↦ ?_
  have hfinds := finds_of_mem_partitionFiles (hlake.clearPartition p) hfile
  have hkept := (List.mem_filter.mp (List.mem_of_mem_filter hfile)).2
  rw [hfinds, hself] at hkept
  cases hkept

theorem partitionFiles_clearPartition_eq_nil {outputDir : List Str} {lake : SilverLake}
    {p : Partition} (h : partitionFiles outputDir p lake = []) (q : Partition) :
    partitionFiles outputDir p (clearPartition outputDir q lake) = [] := by
  rw [partitionFiles, List.filter_eq_nil_iff] at h ⊢
  exact fun file hfile ↦ h file (List.mem_of_mem_filter hfile)

/-- **Runs of the transform are isolated**: with plain names, runs over distinct partitions that
have no files yet leave in each of them what their own run writes, and leave the other partitions as
they were. -/
theorem partitionFiles_runTransforms {bucket : Bucket} {outputDir : List Str}
    {lake lake' : SilverLake} (hlake : Written outputDir lake) {ms : List Materialization}
    (hplain : ∀ m ∈ ms, PlainPartition m.partition)
    (hfresh : ∀ m ∈ ms, partitionFiles outputDir m.partition lake = [])
    (hdistinct : (ms.map Materialization.partition).Nodup)
    (h : runTransforms bucket outputDir lake ms = .ok lake') :
    Written outputDir lake' ∧
      (∀ p ∉ ms.map Materialization.partition,
        partitionFiles outputDir p lake' = partitionFiles outputDir p lake) ∧
      ∀ m ∈ ms, partitionFiles outputDir m.partition lake' =
        (transformSymbolDate bucket outputDir [] m).2 := by
  induction ms generalizing lake with
  | nil =>
    cases h
    exact ⟨hlake, fun p _ ↦ rfl, fun m hm ↦ nomatch hm⟩
  | cons m rest ih =>
    rw [runTransforms] at h
    split at h
    · cases h
    · rename_i result lake₁ htransform
      obtain ⟨rows, hrows, rfl⟩ := transformSymbolDate_ok htransform
      rw [List.map_cons, List.nodup_cons] at hdistinct
      have hown₁ : partitionFiles outputDir m.partition
          (clearPartition outputDir m.partition lake ++ newFiles outputDir m rows) =
          newFiles outputDir m rows := by
        rw [partitionFiles_append, partitionFiles_newFiles, if_pos rfl,
          partitionFiles_clearPartition_eq_nil (hfresh m List.mem_cons_self), List.nil_append]
      have hothers₁ : ∀ p, m.partition ≠ p → partitionFiles outputDir p
          (clearPartition outputDir m.partition lake ++ newFiles outputDir m rows) =
          partitionFiles outputDir p lake := by
        intro p hne
        rw [partitionFiles_append, partitionFiles_newFiles, if_neg hne, List.append_nil,
          partitionFiles_clearPartition hlake (hplain m List.mem_cons_self) hne]
      obtain ⟨hwritten, hothers, hown⟩ := ih
        ((hlake.clearPartition m.partition).append_newFiles m rows)
        (fun m hm ↦ hplain m (List.mem_cons_of_mem _ hm))
        (fun m' hm' ↦ by
          rw [hothers₁ _ fun heq ↦ hdistinct.1 (heq ▸ List.mem_map_of_mem hm')]
          exact hfresh m' (List.mem_cons_of_mem _ hm'))
        hdistinct.2 h
      refine ⟨hwritten, fun p hp ↦ ?_, fun m' hm' ↦ ?_⟩
      · rw [List.map_cons, List.mem_cons, not_or] at hp
        rw [hothers p hp.2, hothers₁ p (Ne.symm hp.1)]
      · rcases List.mem_cons.mp hm' with rfl | hm'
        · rw [hothers _ hdistinct.1, hown₁, snd_transformSymbolDate hrows]
          rfl
        · exact hown m' hm'

end PostTrade
