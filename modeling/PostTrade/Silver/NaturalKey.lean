import PostTrade.Silver.Rebuild

/-!
# The natural key of silver

The quality suite expects `(symbol, sequence)` to be unique over the whole silver dataset, and
`fct_ticks` builds its `tick_id` from the two.  Within the rows of one run they are unique.  But
every run counts from one again, so two runs whose rows stay in the lake collide as soon as their
lines are worth ticks of one symbol, which they are when the symbol has ticks on two dates.

The suite has the symbol that is in the files.  Gold reads it with `read_parquet`, which finds
directories `symbol=…` on their paths and takes it from there: of a file with rows of two symbols
both then are under one.  What text DuckDB makes of the directories is a parameter, `readSymbol`.

`natural_key_unique_iff` says that these are the only ways in which the key fails.  Which runs keep
their rows is decided by the glob that clears a partition; where no name has a special character in
it, they are the last ones of every partition.
-/

set_option autoImplicit false

namespace PostTrade

open Python Numbering

/-! ## How gold reads silver -/

/-- A row whose symbol is read as another one. -/
def SilverRow.readAs (read : Str → Str) (row : SilverRow) : SilverRow :=
  { row with symbol := read row.symbol }

/-- A file as it is read: the symbol of a row is what is made of the directories of the file and of
the symbol that is in it. -/
def SilverFile.readParquet (readSymbol : List Str → Str → Str) (file : SilverFile) : SilverFile :=
  { file with rows := file.rows.map (SilverRow.readAs (readSymbol file.path.dropLast)) }

/-- The external location of `dataeng_silver`. -/
def SilverLake.readParquet (readSymbol : List Str → Str → Str) (lake : SilverLake) : SilverLake :=
  lake.map (SilverFile.readParquet readSymbol)

/-! ## The tests on the key -/

/-- A number as SQL prints it. -/
def intText (n : ℤ) : Str :=
  if n < 0 then '-' :: Nat.toDigits 10 n.natAbs else Nat.toDigits 10 n.natAbs

/-- `symbol || '-' || sequence`. -/
def tickId (row : SilverRow) : Str := row.symbol ++ '-' :: intText row.sequence

/-- The compound uniqueness expectation of the quality suite, and the `unique` test on `tick_id`,
which is about what gold has read. -/
def KeysUnique (readSymbol : List Str → Str → Str) (lake : SilverLake) : Prop :=
  (lake.rows.map SilverRow.naturalKey).Nodup ∧
    ((lake.readParquet readSymbol).rows.map tickId).Nodup

theorem minus_not_mem_intText {n : ℤ} (hn : 0 ≤ n) : '-' ∉ intText n := by
  rw [intText, if_neg (by omega)]
  intro h
  exact absurd (Nat.isDigit_of_mem_toDigits (by decide) (by decide) h) (by decide)

theorem intText_inj {m n : ℤ} (hm : 0 ≤ m) (hn : 0 ≤ n) (h : intText m = intText n) : m = n := by
  rw [intText, intText, if_neg (by omega), if_neg (by omega)] at h
  have hdigits := congrArg (Nat.ofDigitChars 10 · 0) h
  simp only [Nat.ofDigitChars_ten_toDigits] at hdigits
  omega

/-- What follows the last `-` tells where a text was put together. -/
theorem append_minus_inj {s t d e : Str} (hd : '-' ∉ d) (he : '-' ∉ e)
    (h : s ++ '-' :: d = t ++ '-' :: e) : s = t ∧ d = e := by
  have key : ∀ {d e r : Str}, '-' ∉ d → '-' :: d = r ++ '-' :: e → r = [] := by
    rintro d e (_ | ⟨c, r⟩) hd h
    · rfl
    · rw [List.cons_append, List.cons.injEq] at h
      exact absurd (h.2 ▸ List.mem_append_right _ List.mem_cons_self) hd
  rcases List.append_eq_append_iff.mp h with ⟨r, ht, hr⟩ | ⟨r, hs, hr⟩
  · obtain rfl := key hd hr
    exact ⟨by simpa using ht.symm, by simpa using hr⟩
  · obtain rfl := key he hr
    exact ⟨by simpa using hs, by simpa using hr.symm⟩

theorem naturalKey_eq_of_tickId {x y : SilverRow} (hx : 0 ≤ x.sequence) (hy : 0 ≤ y.sequence)
    (h : tickId x = tickId y) : x.naturalKey = y.naturalKey := by
  obtain ⟨hsymbol, htext⟩ :=
    append_minus_inj (minus_not_mem_intText hx) (minus_not_mem_intText hy) h
  exact Prod.ext hsymbol (intText_inj hx hy htext)

/-- With numbers that are not negative, the test on `tick_id` asks what that on the key does. -/
theorem nodup_tickId_iff {rows : List SilverRow} (h : ∀ row ∈ rows, 0 ≤ row.sequence) :
    (rows.map tickId).Nodup ↔ (rows.map SilverRow.naturalKey).Nodup := by
  constructor
  · intro hid
    have hkey : rows.map tickId =
        (rows.map SilverRow.naturalKey).map fun key ↦ key.1 ++ '-' :: intText key.2 := by
      rw [List.map_map]
      rfl
    exact List.Nodup.of_map _ (hkey ▸ hid)
  · intro hkeys
    refine (List.Nodup.of_map _ hkeys).map_on fun x hx y hy hid ↦ ?_
    exact List.inj_on_of_nodup_map hkeys hx hy (naturalKey_eq_of_tickId (h x hx) (h y hy) hid)

/-! ## Many runs -/

/-- The rows of a run, and none where it raises. -/
def rowsOf (bucket : Bucket) (m : Materialization) : List SilverRow :=
  match rebuild bucket m with
  | .ok rows => rows
  | .error _ => []

/-- The run clears the file of another one. -/
def clears (outputDir : List Str) (m earlier : Materialization) : Bool :=
  finds outputDir m.partition (earlier.outPath outputDir)

/-- The runs whose files are still there in the end. -/
def surviving (outputDir : List Str) : List Materialization → List Materialization
  | [] => []
  | m :: rest =>
    if rest.any fun later ↦ clears outputDir later m then surviving outputDir rest
    else m :: surviving outputDir rest

/-- The files that none of the runs clears. -/
def untouched (outputDir : List Str) (ms : List Materialization) (lake : SilverLake) : SilverLake :=
  lake.filter fun file ↦ ms.all fun m ↦ !finds outputDir m.partition file.path

/-- The file of a run stays where no later run clears it. -/
theorem untouched_newFiles (outputDir : List Str) (m : Materialization)
    (rest : List Materialization) (rows : List SilverRow) :
    untouched outputDir rest (newFiles outputDir m rows) =
      if rest.any fun later ↦ clears outputDir later m then [] else newFiles outputDir m rows := by
  have hpath : ∀ file ∈ newFiles outputDir m rows,
      (rest.all fun later ↦ !finds outputDir later.partition file.path) =
        !rest.any fun later ↦ clears outputDir later m := by
    intro file hfile
    rw [path_of_mem_newFiles hfile, List.not_any_eq_all_not]
    rfl
  rw [untouched, List.filter_congr hpath]
  split
  · rename_i hcleared
    simp [hcleared]
  · rename_i hkept
    simp [hkept]

theorem untouched_clearPartition (outputDir : List Str) (m : Materialization)
    (rest : List Materialization) (lake : SilverLake) :
    untouched outputDir rest (clearPartition outputDir m.partition lake) =
      untouched outputDir (m :: rest) lake := by
  rw [untouched, clearPartition, List.filter_filter]
  refine List.filter_congr fun file _ ↦ ?_
  rw [List.all_cons, Bool.and_comm]

/-- The files that runs write. -/
def filesOf (bucket : Bucket) (outputDir : List Str) (ms : List Materialization) : SilverLake :=
  ms.flatMap fun m ↦ newFiles outputDir m (rowsOf bucket m)

/-- **The files of a lake after runs of the transform**: those that none of the runs clears, and
those of the runs that survive. -/
theorem lake_runTransforms {bucket : Bucket} {outputDir : List Str} {lake lake' : SilverLake}
    {ms : List Materialization} (h : runTransforms bucket outputDir lake ms = .ok lake') :
    lake' = untouched outputDir ms lake ++ filesOf bucket outputDir (surviving outputDir ms) := by
  induction ms generalizing lake with
  | nil =>
    cases h
    simp [surviving, untouched, filesOf]
  | cons m rest ih =>
    rw [runTransforms] at h
    split at h
    · cases h
    · rename_i result lake₁ htransform
      obtain ⟨rows, hrows, rfl⟩ := transformSymbolDate_ok htransform
      have hrowsOf : rowsOf bucket m = rows := by rw [rowsOf, hrows]
      have hsplit : untouched outputDir rest
          (clearPartition outputDir m.partition lake ++ newFiles outputDir m rows) =
          untouched outputDir (m :: rest) lake ++
            untouched outputDir rest (newFiles outputDir m rows) := by
        rw [← untouched_clearPartition]
        exact List.filter_append ..
      rw [ih h, hsplit, List.append_assoc, untouched_newFiles, surviving]
      split
      · rfl
      · rw [filesOf, filesOf, List.flatMap_cons, hrowsOf]

theorem mem_of_mem_surviving {outputDir : List Str} {ms : List Materialization}
    {m : Materialization} (h : m ∈ surviving outputDir ms) : m ∈ ms := by
  induction ms with
  | nil => cases h
  | cons m' rest ih =>
    rw [surviving] at h
    split at h
    · exact List.mem_cons_of_mem _ (ih h)
    · rcases List.mem_cons.mp h with rfl | h
      · exact List.mem_cons_self
      · exact List.mem_cons_of_mem _ (ih h)

theorem rebuild_of_runTransforms {bucket : Bucket} {outputDir : List Str} {lake lake' : SilverLake}
    {ms : List Materialization} (h : runTransforms bucket outputDir lake ms = .ok lake')
    {m : Materialization} (hm : m ∈ ms) : ∃ rows, rebuild bucket m = .ok rows := by
  induction ms generalizing lake with
  | nil => cases hm
  | cons m' rest ih =>
    rw [runTransforms] at h
    split at h
    · cases h
    · rename_i result lake₁ htransform
      rcases List.mem_cons.mp hm with rfl | hm
      · obtain ⟨rows, hrows, -⟩ := transformSymbolDate_ok htransform
        exact ⟨rows, hrows⟩
      · exact ih h hm

/-! ## When the key is unique -/

/-- A line of the partition is worth a tick of the symbol. -/
def Publishes (bucket : Bucket) (p : Partition) (symbol : Str) : Prop :=
  ∃ lines, bronzeLines bucket p = .ok lines ∧ ∃ line ∈ lines, acceptedSymbol line = some symbol

/-- The rows of a run that completes have the symbols that the partition publishes. -/
theorem exists_row_iff {bucket : Bucket} {m : Materialization} {rows : List SilverRow}
    (h : rebuild bucket m = .ok rows) (symbol : Str) :
    (∃ row ∈ rows, row.symbol = symbol) ↔ Publishes bucket m.partition symbol := by
  obtain ⟨-, lines, hlines, hsymbols⟩ := rebuild_ok h
  rw [← List.mem_map, hsymbols, List.mem_filterMap, Publishes]
  simp only [hlines, Except.ok.injEq, exists_eq_left', mem_dedupLines, List.not_mem_nil,
    not_false_iff, and_true]

theorem setOf_publishes_eq {bucket : Bucket} {m : Materialization} {rows : List SilverRow}
    (h : rebuild bucket m = .ok rows) :
    {symbol | Publishes bucket m.partition symbol} = keysOf SilverRow.symbol rows :=
  Set.ext fun symbol ↦ (exists_row_iff h symbol).symm

/-- The symbols that a partition publishes, as they are read. -/
def ReadsAs (read : Partition → Str → Str) (bucket : Bucket) (p : Partition) (symbol : Str) :
    Prop :=
  ∃ written, Publishes bucket p written ∧ read p written = symbol

/-- Two partitions publish no symbol in common. -/
def Apart (bucket : Bucket) (p q : Partition) : Prop :=
  ∀ symbol, ¬ (Publishes bucket p symbol ∧ Publishes bucket q symbol)

/-- Of what two partitions publish no symbols are read as one. -/
def ReadApart (read : Partition → Str → Str) (bucket : Bucket) (p q : Partition) : Prop :=
  ∀ symbol, ¬ (ReadsAs read bucket p symbol ∧ ReadsAs read bucket q symbol)

/-- No two symbols that the partition publishes are read as one. -/
def ToldApart (read : Partition → Str → Str) (bucket : Bucket) (p : Partition) : Prop :=
  Set.InjOn (read p) {symbol | Publishes bucket p symbol}

/-- What is read of the rows that runs over the partition write. -/
def readFiled (readSymbol : List Str → Str → Str) (outputDir : List Str) (p : Partition) :
    Str → Str :=
  readSymbol (partitionDir outputDir p)

section Runs

variable {bucket : Bucket} {ms : List Materialization}

theorem rebuild_rowsOf (h : ∀ m ∈ ms, ∃ rows, rebuild bucket m = .ok rows) :
    ∀ m ∈ ms, rebuild bucket m = .ok (rowsOf bucket m) := by
  intro m hm
  obtain ⟨rows, hrows⟩ := h m hm
  rw [rowsOf, hrows]

/-- The keys of the rows of runs that complete, read in any way. -/
theorem nodup_readAs_iff (h : ∀ m ∈ ms, ∃ rows, rebuild bucket m = .ok rows)
    (read : Partition → Str → Str) :
    ((ms.flatMap fun m ↦ (rowsOf bucket m).map (SilverRow.readAs (read m.partition))).map
        SilverRow.naturalKey).Nodup ↔
      ms.Pairwise (fun m m' ↦ ReadApart read bucket m.partition m'.partition) ∧
        ∀ m ∈ ms, ToldApart read bucket m.partition := by
  have hrebuild := rebuild_rowsOf h
  have hnumbered : ∀ m ∈ ms,
      Numbered SilverRow.symbol SilverRow.sequence (rowsOf bucket m) :=
    fun m hm ↦ (rebuild_ok (hrebuild m hm)).1
  have hreads : ∀ m ∈ ms, ∀ symbol, (∃ row ∈ rowsOf bucket m,
      read m.partition row.symbol = symbol) ↔ ReadsAs read bucket m.partition symbol := by
    intro m hm symbol
    simp only [ReadsAs, ← exists_row_iff (hrebuild m hm)]
    constructor
    · rintro ⟨row, hrow, hread⟩
      exact ⟨row.symbol, ⟨row, hrow, rfl⟩, hread⟩
    · rintro ⟨_, ⟨row, hrow, rfl⟩, hread⟩
      exact ⟨row, hrow, hread⟩
  rw [List.map_flatMap, List.nodup_flatMap, and_comm]
  refine and_congr (List.Pairwise.iff_of_mem fun {m m'} hm hm' ↦ ?_)
    (forall₂_congr fun m hm ↦ ?_)
  · have hdisjoint := (hnumbered m hm).disjoint_read_iff (hnumbered m' hm') (read m.partition)
      (read m'.partition)
    simp only [hreads m hm, hreads m' hm'] at hdisjoint
    rw [Function.onFun, List.map_map, List.map_map]
    exact hdisjoint
  · rw [ToldApart, setOf_publishes_eq (hrebuild m hm), ← (hnumbered m hm).nodup_read_iff,
      List.map_map]
    exact .rfl

theorem nodup_naturalKey_iff (h : ∀ m ∈ ms, ∃ rows, rebuild bucket m = .ok rows) :
    ((ms.flatMap (rowsOf bucket)).map SilverRow.naturalKey).Nodup ↔
      ms.Pairwise fun m m' ↦ Apart bucket m.partition m'.partition := by
  have hwritten := nodup_readAs_iff h fun _ symbol ↦ symbol
  have hrows : ∀ m, (rowsOf bucket m).map (SilverRow.readAs fun symbol ↦ symbol) =
      rowsOf bucket m := fun m ↦ List.map_id _
  have htold : ∀ m ∈ ms, ToldApart (fun _ symbol ↦ symbol) bucket m.partition :=
    fun m _ ↦ Set.injOn_id _
  simp only [hrows, and_iff_left htold, ReadApart, ReadsAs, exists_eq_right] at hwritten
  exact hwritten

/-- The rows of a new file, as they are read. -/
theorem rows_readParquet_newFiles (readSymbol : List Str → Str → Str) (outputDir : List Str)
    (m : Materialization) (rows : List SilverRow) :
    (SilverLake.readParquet readSymbol (newFiles outputDir m rows)).rows =
      rows.map (SilverRow.readAs (readFiled readSymbol outputDir m.partition)) := by
  rw [newFiles]
  split
  · rename_i hnil
    rw [hnil]
    rfl
  · rw [SilverLake.readParquet, List.map_singleton, SilverLake.rows, List.flatMap_singleton,
      SilverFile.readParquet, dropLast_outPath]
    rfl

theorem rows_filesOf (outputDir : List Str) :
    SilverLake.rows (filesOf bucket outputDir ms) = ms.flatMap (rowsOf bucket) := by
  rw [SilverLake.rows, filesOf, List.flatMap_assoc]
  exact List.flatMap_congr fun m _ ↦ rows_newFiles outputDir m _

theorem rows_readParquet_filesOf (readSymbol : List Str → Str → Str) (outputDir : List Str) :
    (SilverLake.readParquet readSymbol (filesOf bucket outputDir ms)).rows = ms.flatMap fun m ↦
      (rowsOf bucket m).map (SilverRow.readAs (readFiled readSymbol outputDir m.partition)) := by
  rw [SilverLake.readParquet, SilverLake.rows, filesOf, List.map_flatMap, List.flatMap_assoc]
  exact List.flatMap_congr fun m _ ↦ rows_readParquet_newFiles readSymbol outputDir m _

/-- **When the tests on the key pass** over the files of runs. -/
theorem keysUnique_filesOf_iff (h : ∀ m ∈ ms, ∃ rows, rebuild bucket m = .ok rows)
    (readSymbol : List Str → Str → Str) (outputDir : List Str) :
    KeysUnique readSymbol (filesOf bucket outputDir ms) ↔
      ms.Pairwise (fun m m' ↦ Apart bucket m.partition m'.partition ∧
        ReadApart (readFiled readSymbol outputDir) bucket m.partition m'.partition) ∧
      ∀ m ∈ ms, ToldApart (readFiled readSymbol outputDir) bucket m.partition := by
  have hsequence : ∀ row ∈ (SilverLake.readParquet readSymbol (filesOf bucket outputDir ms)).rows,
      0 ≤ row.sequence := by
    intro row hrow
    rw [rows_readParquet_filesOf] at hrow
    obtain ⟨m, hm, hrow⟩ := List.mem_flatMap.mp hrow
    obtain ⟨written, hwritten, rfl⟩ := List.mem_map.mp hrow
    have hone := ((rebuild_ok (rebuild_rowsOf h m hm)).1.exists_iff.mp
      ⟨written, hwritten, rfl, rfl⟩).1
    exact Int.le_of_lt hone
  rw [KeysUnique, nodup_tickId_iff hsequence, rows_filesOf, rows_readParquet_filesOf,
    nodup_naturalKey_iff h, nodup_readAs_iff h, ← and_assoc, List.pairwise_and_iff]

end Runs

/-- With plain names the last run of every partition survives. -/
theorem map_partition_surviving {outputDir : List Str} (ms : List Materialization)
    (houtput : ∀ dir ∈ outputDir, Glob.Plain dir) (hms : ∀ m ∈ ms, PlainPartition m.partition) :
    (surviving outputDir ms).map Materialization.partition =
      (ms.map Materialization.partition).dedup := by
  induction ms with
  | nil => rfl
  | cons m rest ih =>
    have ih := ih fun m hm ↦ hms m (List.mem_cons_of_mem _ hm)
    have hcleared : (rest.any fun later ↦ clears outputDir later m) = true ↔
        m.partition ∈ rest.map Materialization.partition := by
      rw [List.any_eq_true, List.mem_map]
      refine exists_congr fun later ↦ and_congr_right fun hlater ↦ ?_
      exact finds_outPath_iff houtput (hms later (List.mem_cons_of_mem _ hlater)) m
    rw [surviving, List.map_cons]
    split
    · rename_i h
      rw [List.dedup_cons_of_mem (hcleared.mp h), ih]
    · rename_i h
      rw [List.dedup_cons_of_notMem (fun hmem ↦ h (hcleared.mpr hmem)), List.map_cons, ih]

/-- **When the natural key of silver is unique.**  Run the transform for every discovered partition,
in any order and as often as you like, into an empty lake: the key is unique over the whole lake,
and the `tick_id` over what gold reads of it, exactly when no two of the runs whose files are still
there publish a symbol in common, or symbols that are read as one, and none of them publishes two
symbols that are read as one.  Where no name has a special character of a glob in it, this means
that no two discovered partitions do, and none of them. -/
theorem natural_key_unique_iff {bucket : Bucket} {outputDir : List Str}
    {ms : List Materialization} {lake : SilverLake}
    (hcover : ∀ p, p ∈ ms.map Materialization.partition ↔ p ∈ discoverBronzePartitions bucket)
    (hruns : runTransforms bucket outputDir [] ms = .ok lake)
    (readSymbol : List Str → Str → Str) :
    (KeysUnique readSymbol lake ↔
      (surviving outputDir ms).Pairwise (fun m m' ↦ Apart bucket m.partition m'.partition ∧
        ReadApart (readFiled readSymbol outputDir) bucket m.partition m'.partition) ∧
      ∀ m ∈ surviving outputDir ms, ToldApart (readFiled readSymbol outputDir) bucket
        m.partition) ∧
    ((∀ dir ∈ outputDir, Glob.Plain dir) →
      (∀ p ∈ discoverBronzePartitions bucket, PlainPartition p) →
      (KeysUnique readSymbol lake ↔
        (∀ p ∈ discoverBronzePartitions bucket, ∀ q ∈ discoverBronzePartitions bucket, p ≠ q →
          Apart bucket p q ∧ ReadApart (readFiled readSymbol outputDir) bucket p q) ∧
        ∀ p ∈ discoverBronzePartitions bucket,
          ToldApart (readFiled readSymbol outputDir) bucket p)) := by
  have hlake : lake = filesOf bucket outputDir (surviving outputDir ms) := lake_runTransforms hruns
  have hrebuild : ∀ m ∈ surviving outputDir ms, ∃ rows, rebuild bucket m = .ok rows :=
    fun m hm ↦ rebuild_of_runTransforms hruns (mem_of_mem_surviving hm)
  have hunique := keysUnique_filesOf_iff hrebuild readSymbol outputDir
  rw [← hlake] at hunique
  refine ⟨hunique, fun houtput hplain ↦ ?_⟩
  have hsurviving := map_partition_surviving ms houtput fun m hm ↦
    hplain _ ((hcover _).mp (List.mem_map_of_mem hm))
  have hmem : ∀ p, p ∈ (surviving outputDir ms).map Materialization.partition ↔
      p ∈ discoverBronzePartitions bucket := by
    intro p
    rw [hsurviving, List.mem_dedup, hcover]
  have hnodup : ((surviving outputDir ms).map Materialization.partition).Nodup := by
    rw [hsurviving]
    exact List.nodup_dedup _
  have hsymm : Std.Symm fun p q ↦ Apart bucket p q ∧
      ReadApart (readFiled readSymbol outputDir) bucket p q :=
    ⟨fun p q h ↦ ⟨fun symbol hboth ↦ h.1 symbol hboth.symm,
      fun symbol hboth ↦ h.2 symbol hboth.symm⟩⟩
  rw [hunique, ← List.pairwise_map (R := fun p q ↦ Apart bucket p q ∧
      ReadApart (readFiled readSymbol outputDir) bucket p q),
    ← List.forall_mem_map (P := ToldApart (readFiled readSymbol outputDir) bucket),
    ← hnodup.pairwise_coe]
  simp only [Set.Pairwise, Set.mem_ofPred_eq, hmem]

/-! ### One symbol on two dates -/

/-- The bucket with an object for each of the symbols and dates: one trade of the symbol. -/
def tradesBucket (partitions : List Partition) : Bucket :=
  partitions.foldl (fun b p ↦ b.put (tradeObject p "0" "100")) .empty

/-- The run for a partition, all of it at one time. -/
def runFor (p : Partition) : Materialization where
  symbol := p.1
  date := p.2
  clock := fun _ ↦ (0, 0)
  uuid := "0".toList

def btcSecond : Partition := ("BTC-USD".toList, "2026-01-02".toList)

/-- The row of such a trade. -/
def tradeRow (symbol : Str) : SilverRow where
  symbol := symbol
  sequence := 1
  price := 100
  size := none
  side := none
  exchange := "coinbase".toList
  channel := "matches".toList
  exchangeTimestamp := 0
  ingestTimestamp := 0

/-- The file of such a trade. -/
def tradeFile (p : Partition) : SilverFile where
  path := partitionDir ["silver".toList] p ++ ["part-0.parquet".toList]
  rows := [tradeRow p.1]

/-- The symbol as it stands in the directories of a file. -/
def hiveSymbol (dirs : List Str) (symbol : Str) : Str :=
  (dirs.findSome? fun dir ↦ dir.dropPrefix? "symbol=".toList).getD symbol

/-- Two symbols on one date do not get into each other's way. -/
theorem natural_key_unique_two_symbols :
    KeysUnique hiveSymbol [tradeFile btcFirst, tradeFile ethFirst] ∧
      Apart (tradesBucket [btcFirst, ethFirst]) btcFirst ethFirst := by
  have hdiscover :
      discoverBronzePartitions (tradesBucket [btcFirst, ethFirst]) = [btcFirst, ethFirst] := by
    decide +kernel
  have hruns : runTransforms (tradesBucket [btcFirst, ethFirst]) ["silver".toList] []
      [runFor btcFirst, runFor ethFirst] = .ok [tradeFile btcFirst, tradeFile ethFirst] := by
    decide +kernel
  have hunique : KeysUnique hiveSymbol [tradeFile btcFirst, tradeFile ethFirst] :=
    ⟨by decide +kernel, by decide +kernel⟩
  have hiff := (natural_key_unique_iff (fun p ↦ by rw [hdiscover]; rfl) hruns hiveSymbol).2
    (by decide +kernel) (by rw [hdiscover]; unfold PlainPartition; decide +kernel)
  refine ⟨hunique, ((hiff.mp hunique).1 _ ?_ _ ?_ (by decide)).1⟩
  · rw [hdiscover]
    exact List.mem_cons_self
  · rw [hdiscover]
    exact List.mem_cons_of_mem _ List.mem_cons_self

/-- One symbol on two dates: both partitions have a row with its first number, whatever it is read
as. -/
theorem natural_key_collides_on_two_dates :
    discoverBronzePartitions (tradesBucket [btcFirst, btcSecond]) = [btcFirst, btcSecond] ∧
      runTransforms (tradesBucket [btcFirst, btcSecond]) ["silver".toList] []
        [runFor btcFirst, runFor btcSecond] = .ok [tradeFile btcFirst, tradeFile btcSecond] ∧
      SilverLake.rows [tradeFile btcFirst, tradeFile btcSecond] =
        [tradeRow "BTC-USD".toList, tradeRow "BTC-USD".toList] ∧
      ∀ readSymbol, ¬ KeysUnique readSymbol [tradeFile btcFirst, tradeFile btcSecond] := by
  refine ⟨by decide +kernel, by decide +kernel, by decide +kernel, fun readSymbol h ↦ ?_⟩
  exact absurd h.1 (by decide +kernel)

end PostTrade
