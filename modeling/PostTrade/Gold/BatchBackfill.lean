import PostTrade.Bronze.Addresses
import PostTrade.Gold.Build
import PostTrade.Orchestration.Backfill
import PostTrade.Quality.SilverExpectations

/-!
# Gold and quality, whatever has been run

`build_gold_op` comes last in `batch_backfill_job`, and `gold_tables` and the quality checks may run
at any time.  They see whatever the lake holds then.

In every state that is reached, each file of it has been written by one run that completed
(`products_run`).  So `gold_build_iff` and `quality_checks_eq` say what becomes of the build and of
the checks in terms of the files, in any state.  The two do not ask the same of the natural key:
gold has the symbols as DuckDB reads them, and the checks have them from the rows.

After a backfill over a bucket in which nothing lands any more, `batch_backfill_iff` says it in
terms of bronze.
-/

set_option autoImplicit false

namespace PostTrade

open Python Numbering

namespace Orchestration

/-! ## The files of any state -/

theorem products_transform {outputDir : List Str} {s : Orchestration}
    (h : ∀ file ∈ s.lake, Product outputDir file) (p : Partition) (draws : RunDraws) :
    ∀ file ∈ (transform outputDir s p draws).lake, Product outputDir file := by
  have hclear : ∀ q, ∀ file ∈ clearPartition outputDir q s.lake, Product outputDir file :=
    fun q file hfile ↦ h file (List.mem_of_mem_filter hfile)
  rw [transform]
  cases hrun : transformSymbolDate s.bucket outputDir s.lake (draws.materialization p) with
  | mk result lake =>
    cases result with
    | ok result =>
      obtain ⟨rows, hrows, rfl⟩ := transformSymbolDate_ok hrun
      intro file hfile
      rcases List.mem_append.mp hfile with hfile | hfile
      · exact hclear _ file hfile
      · exact product_of_mem_newFiles hrows hfile
    | error e =>
      rcases transformSymbolDate_error hrun with rfl | rfl
      · exact h
      · exact hclear _

/-- **Each file has been written by one run that completed**, in every state that is reached. -/
theorem products_run {outputDir : List Str} {as : List Action} {s : Orchestration}
    (hrun : Machine.run (step outputDir) init as = some s) :
    ∀ file ∈ s.lake, Product outputDir file := by
  refine Machine.run_induction (I := fun s : Orchestration ↦
    ∀ file ∈ s.lake, Product outputDir file) ?_
    (fun file hfile ↦ absurd hfile List.not_mem_nil) hrun
  intro s a t h hstep
  cases effect_of_step hstep with
  | start draws _ => exact products_transform h _ draws
  | materialize p draws => exact products_transform h p draws
  | replayNext draws _ _ _ => exact products_transform h _ draws
  | _ => exact h

/-- **When the gold build succeeds**, at any time: there is a file in the lake, no symbols of
different files are read as one, nor are any of one file, and in no file a symbol comes back to an
hour it has left. -/
theorem gold_build_iff {outputDir : List Str} {as : List Action} {s : Orchestration}
    (hrun : Machine.run (step outputDir) init as = some s) (readSymbol : List Str → Str → Str)
    (localTime : Time → Time) : buildGoldOp readSymbol localTime s.lake = .ok () ↔ s.lake ≠ [] ∧
      s.lake.Pairwise (fun f g ↦ f.ReadApart readSymbol g) ∧
      (∀ file ∈ s.lake, file.ToldApart readSymbol) ∧
      ∀ file ∈ s.lake, InTurn Prod.fst (file.rows.map (SilverRow.hour localTime)) := by
  rw [buildGoldOp_eq_ok_iff, dbtBuild_eq_zero_iff (products_run hrun)]

/-- **What the quality checks return**, at any time.  With no file found they evaluate nothing and
do not succeed.  Else seven of the ten expectations are met whatever has been run; the others are
that prices are sane, that no row was ingested before it was sent, and that no two of the files
found have a symbol in common.  All files are found below an output directory without a special
character of a glob in it. -/
theorem quality_checks_eq {outputDir : List Str} {as : List Action} {s : Orchestration}
    (hrun : Machine.run (step outputDir) init as = some s) (silverPath : List Str) :
    (foundFiles silverPath s.lake = [] → runSilverQualityChecks silverPath s.lake = {
      success := false
      rowCount := 0
      evaluatedExpectations := 0
      successfulExpectations := 0
      unsuccessfulExpectations := 0 }) ∧
    (foundFiles silverPath s.lake ≠ [] → ∃ sane clocked keyed : Bool,
      (sane = true ↔ SanePrices (foundFiles silverPath s.lake).rows) ∧
      (clocked = true ↔ ClocksAgree (foundFiles silverPath s.lake).rows) ∧
      (keyed = true ↔ (foundFiles silverPath s.lake).Pairwise SymbolsApart) ∧
      runSilverQualityChecks silverPath s.lake = {
        success := sane && clocked && keyed
        rowCount := (foundFiles silverPath s.lake).rows.length
        evaluatedExpectations := 10
        successfulExpectations := 7 + [sane, clocked, keyed].count true
        unsuccessfulExpectations := [sane, clocked, keyed].count false }) ∧
    ((∀ dir ∈ outputDir, Glob.Plain dir) →
      (∀ file ∈ s.lake, ∀ p, file.path.dropLast = partitionDir outputDir p → NoFileNames p) →
      foundFiles outputDir s.lake = s.lake) := by
  have hproducts := products_run hrun
  refine ⟨fun hnone ↦ ?_, fun hne ↦ ?_, fun houtput ↦ foundFiles_eq_self houtput hproducts⟩
  · rw [runSilverQualityChecks, loadSilverDataframe, hnone]
    rfl
  · exact runSilverQualityChecks_eq rfl
      (fun file hfile ↦ hproducts file (mem_of_mem_foundFiles hfile)) hne

/-! ## Files of partitions that are there -/

/-- An object lands under a key of its own partition only: what its prefix says is what is
discovered of it. -/
def Action.KeepsKeys : Action → Prop
  | .land o => ∀ p, PathNames p → partitionPrefix p.1 p.2 <+: o.key → partitionOfKey o.key = some p
  | _ => True

theorem partitionPrefix_append (symbol date rest : Str) : partitionPrefix symbol date ++ rest =
    "ticks/symbol=".toList ++ (symbol ++ '/' :: (("date=".toList ++ date) ++ '/' :: rest)) := by
  rw [partitionPrefix_eq]
  generalize "date=".toList ++ date = dateName
  simp only [List.append_assoc, List.cons_append, List.nil_append]

/-- A key that begins with the prefix of its partition does, if there is no slash in the names. -/
theorem keepsKeys_of_key_eq {p : Partition} {rest : Str} {o : BronzeObject} (hp : '/' ∉ p.1)
    (hdate : '/' ∉ p.2) (hkey : o.key = partitionPrefix p.1 p.2 ++ rest)
    (hof : partitionOfKey o.key = some p) : (Action.land o).KeepsKeys := by
  intro q hq hprefix
  have hpart : ∀ d : Str, '/' ∉ d → '/' ∉ "date=".toList ++ d := fun d hd ↦
    slash_not_mem_append (by decide) hd
  rw [hkey, partitionPrefix_append, partitionPrefix_eq, List.prefix_append_right_inj,
    prefix_sep_iff hq.symbol hp, prefix_sep_iff (hpart _ hq.date) (hpart _ hdate),
    List.append_cancel_left_eq] at hprefix
  rw [hof, Option.some_inj]
  exact Prod.ext hprefix.1.symm hprefix.2.1.symm

/-- The objects of the bronze writer do. -/
theorem keepsKeys_put {x : Str} {t : Time} {put : Put} (hx : x ≠ []) (hslash : '/' ∉ x)
    (hpartition : put.partition = partitionKey x t)
    (hhex : ∀ c ∈ put.uuid, c ∈ "0123456789abcdef".toList) :
    (Action.land put.object).KeepsKeys := by
  have hkey : put.object.key = partitionPrefix x (Datetime.dateText t) ++
      (("hour=".toList ++ Datetime.hourText t) ++ '/' :: (put.uuid ++ ".ndjson".toList)) := by
    rw [put.key_eq hpartition, partitionPrefix_append]
  have hof := partitionOfKey_key hx hslash hpartition hhex
  exact keepsKeys_of_key_eq hslash (Datetime.slash_not_mem_dateText t) hkey hof

/-- The keys of a partition are among those that are listed for discovery. -/
theorem ticks_prefix_partitionPrefix (symbol date : Str) :
    "ticks/".toList <+: partitionPrefix symbol date := by
  have hticks : "ticks/".toList <+: "ticks/symbol=".toList := by decide
  rw [partitionPrefix_eq]
  exact hticks.trans (List.prefix_append _ _)

/-- What a run gets any rows for is discovered. -/
theorem discovered_of_rebuild {bucket : Bucket} {m : Materialization} {rows : List SilverRow}
    (hkeys : ∀ o ∈ bucket.objects, (Action.land o).KeepsKeys) (hm : PathNames m.partition)
    (h : rebuild bucket m = .ok rows) (hne : rows ≠ []) :
    m.partition ∈ discoverBronzePartitions bucket := by
  obtain ⟨lines, hlines, h⟩ := bind_eq_ok.mp h
  cases hlisted : bucket.listObjects (partitionPrefix m.partition.1 m.partition.2) with
  | nil =>
    rw [bronzeLines, listBronzeObjects, hlisted] at hlines
    cases hlines
    cases h
    exact absurd rfl hne
  | cons o rest =>
    have hmem : o ∈ bucket.listObjects (partitionPrefix m.partition.1 m.partition.2) := by
      rw [hlisted]
      exact List.mem_cons_self
    obtain ⟨ho, hprefix⟩ := List.mem_filter.mp hmem
    rw [List.isPrefixOf_iff_prefix] at hprefix
    have hkey : partitionOfKey o.key = some m.partition := hkeys o ho m.partition hm hprefix
    have hticks : "ticks/".toList <+: o.key := (ticks_prefix_partitionPrefix _ _).trans hprefix
    exact mem_discoverBronzePartitions.mpr ⟨o, ho, hticks, hkey⟩

/-- The objects keep to their keys, and each file of the lake is of a partition that is there. -/
structure Stocked (outputDir : List Str) (s : Orchestration) : Prop where
  keys : ∀ o ∈ s.bucket.objects, (Action.land o).KeepsKeys
  files : ∀ file ∈ s.lake, ∃ p ∈ discoverBronzePartitions s.bucket,
    file.path.dropLast = partitionDir outputDir p

theorem Stocked.transform {outputDir : List Str} {s : Orchestration} (h : s.Stocked outputDir)
    {p : Partition} (hp : p ∈ discoverBronzePartitions s.bucket ∨ PathNames p)
    (draws : RunDraws) : (transform outputDir s p draws).Stocked outputDir := by
  have hclear : ∀ q, ∀ file ∈ clearPartition outputDir q s.lake,
      ∃ p ∈ discoverBronzePartitions s.bucket, file.path.dropLast = partitionDir outputDir p :=
    fun q file hfile ↦ h.files file (List.mem_of_mem_filter hfile)
  refine ⟨h.keys, ?_⟩
  rw [Orchestration.transform]
  cases hrun : transformSymbolDate s.bucket outputDir s.lake (draws.materialization p) with
  | mk result lake =>
    cases result with
    | ok result =>
      obtain ⟨rows, hrows, rfl⟩ := transformSymbolDate_ok hrun
      intro file hfile
      rcases List.mem_append.mp hfile with hfile | hfile
      · exact hclear _ file hfile
      · refine ⟨p, hp.elim id fun hp ↦ ?_, ?_⟩
        · have hm : PathNames (draws.materialization p).partition := hp
          rw [newFiles] at hfile
          split at hfile
          · cases hfile
          · rename_i hne
            exact discovered_of_rebuild h.keys hm hrows hne
        · rw [path_of_mem_newFiles hfile, dropLast_outPath]
          rfl
    | error e =>
      rcases transformSymbolDate_error hrun with rfl | rfl
      · exact h.files
      · exact hclear _

theorem stocked_init (outputDir : List Str) : init.Stocked outputDir where
  keys _ ho := nomatch ho
  files _ hfile := nomatch hfile

theorem Stocked.step {outputDir : List Str} {s t : Orchestration} {a : Action}
    (h : s.Stocked outputDir) (hs : s.Sound outputDir) (ha : a.KeepsNames) (hkeys : a.KeepsKeys)
    (hstep : Orchestration.step outputDir s a = some t) : t.Stocked outputDir := by
  have hgrows := grows_of_step hstep
  cases effect_of_step hstep with
  | land o =>
    refine ⟨fun o' ho' ↦ ?_, fun file hfile ↦ ?_⟩
    · rcases Bucket.mem_put.mp ho' with rfl | ⟨ho', -⟩
      · exact hkeys
      · exact h.keys o' ho'
    · obtain ⟨p, hp, hdir⟩ := h.files file hfile
      exact ⟨p, hgrows.discovers hp, hdir⟩
  | start draws request =>
    have hp := hs.requested _ (List.mem_of_getElem? request)
    exact ⟨h.keys, (h.transform (.inl hp) draws).files⟩
  | materialize p draws => exact h.transform (.inr ha) draws
  | replayNext draws running next going =>
    have hp := hs.replays _ (List.mem_of_getElem? running) _ (next ▸ List.mem_cons_self)
    exact ⟨h.keys, (h.transform (.inl hp) draws).files⟩
  | _ => exact ⟨h.keys, h.files⟩

theorem stocked_run {outputDir : List Str} {as : List Action} {s : Orchestration}
    (hnames : ∀ a ∈ as, a.KeepsNames ∧ a.KeepsKeys)
    (hrun : Machine.run (Orchestration.step outputDir) init as = some s) :
    s.Sound outputDir ∧ s.Stocked outputDir :=
  Machine.Along.induction (I := fun s ↦ s.Sound outputDir ∧ s.Stocked outputDir)
    (fun _ _ _ h ha hstep ↦ ⟨h.1.step ha.1 hstep, h.2.step h.1 ha.1 ha.2 hstep⟩)
    ⟨sound_init outputDir, stocked_init outputDir⟩ (Machine.Along.of_forall hnames) hrun

/-! ## The lake, partition by partition -/

/-- Where each file is in one of the directories, the lake is their files together. -/
theorem perm_flatMap_partitionFiles {outputDir : List Str} {ps : List Partition} {lake : SilverLake}
    (hnodup : ps.Nodup)
    (h : ∀ file ∈ lake, ∃ p ∈ ps, file.path.dropLast = partitionDir outputDir p) :
    lake.Perm (ps.flatMap fun p ↦ partitionFiles outputDir p lake) := by
  induction ps generalizing lake with
  | nil =>
    have hnil : lake = [] := List.eq_nil_iff_forall_not_mem.mpr fun file hfile ↦ by
      obtain ⟨p, hp, -⟩ := h file hfile
      cases hp
    rw [hnil]
    exact List.Perm.nil
  | cons p rest ih =>
    obtain ⟨hp, hrest⟩ := List.nodup_cons.mp hnodup
    set others := lake.filter fun file ↦ !decide (file.path.dropLast = partitionDir outputDir p)
      with hothers
    have hsplit : (partitionFiles outputDir p lake ++ others).Perm lake :=
      List.filter_append_perm _ _
    have hsame : ∀ q ∈ rest,
        partitionFiles outputDir q others = partitionFiles outputDir q lake := by
      intro q hq
      rw [partitionFiles, hothers, List.filter_filter]
      refine List.filter_congr fun file _ ↦ ?_
      by_cases hdir : file.path.dropLast = partitionDir outputDir q
      · have hne : ¬ partitionDir outputDir q = partitionDir outputDir p := fun heq ↦
          hp (partitionDir_inj.mp heq ▸ hq)
        simp [hdir, hne]
      · simp [hdir]
    refine hsplit.symm.trans ?_
    rw [List.flatMap_cons, List.flatMap_congr fun q hq ↦ (hsame q hq).symm]
    refine (ih hrest fun file hfile ↦ ?_).append_left _
    obtain ⟨hfile, hdir⟩ := List.mem_filter.mp hfile
    obtain ⟨q, hq, hfrom⟩ := h file hfile
    rcases List.mem_cons.mp hq with rfl | hq
    · simp [hfrom] at hdir
    · exact ⟨q, hq, hfrom⟩

/-! ## In terms of bronze -/

/-- Some line is worth a tick. -/
def WorthATick (bucket : Bucket) : Prop :=
  ∃ p ∈ discoverBronzePartitions bucket, ∃ symbol, Publishes bucket p symbol

/-- No two partitions of one symbol are both worth a tick. -/
def OneDateEach (bucket : Bucket) : Prop :=
  ∀ p ∈ discoverBronzePartitions bucket, ∀ q ∈ discoverBronzePartitions bucket, p ≠ q →
    (∃ symbol, Publishes bucket p symbol) → (∃ symbol, Publishes bucket q symbol) → p.1 ≠ q.1

/-- The ticks of each partition are of one symbol. -/
def OneSymbolEach (bucket : Bucket) : Prop :=
  ∀ p ∈ discoverBronzePartitions bucket, ∀ symbol symbol', Publishes bucket p symbol →
    Publishes bucket p symbol' → symbol = symbol'

/-- No symbols of different partitions are read as one. -/
def AllReadApart (read : Partition → Str → Str) (bucket : Bucket) : Prop :=
  ∀ p ∈ discoverBronzePartitions bucket, ∀ q ∈ discoverBronzePartitions bucket, p ≠ q →
    ReadApart read bucket p q

/-- No symbols of one partition are read as one. -/
def AllToldApart (read : Partition → Str → Str) (bucket : Bucket) : Prop :=
  ∀ p ∈ discoverBronzePartitions bucket, ToldApart read bucket p

/-- Read as the symbols of their partitions, the symbols of different partitions are told apart
where each of these has ticks on one date. -/
theorem allReadApart_iff {bucket : Bucket} {read : Partition → Str → Str}
    (hread : ∀ p ∈ discoverBronzePartitions bucket, ∀ symbol, read p symbol = p.1) :
    AllReadApart read bucket ↔ OneDateEach bucket := by
  refine forall₂_congr fun p hp ↦ forall₂_congr fun q hq ↦ forall_congr' fun _ ↦ ?_
  simp only [ReadApart, ReadsAs, hread p hp, hread q hq]
  constructor
  · rintro h ⟨symbol, hsymbol⟩ ⟨symbol', hsymbol'⟩ heq
    exact h q.1 ⟨⟨symbol, hsymbol, heq⟩, symbol', hsymbol', rfl⟩
  · rintro h symbol ⟨⟨written, hwritten, rfl⟩, written', hwritten', heq⟩
    exact h ⟨written, hwritten⟩ ⟨written', hwritten'⟩ heq.symm

/-- And those of one partition where there is one only. -/
theorem allToldApart_iff {bucket : Bucket} {read : Partition → Str → Str}
    (hread : ∀ p ∈ discoverBronzePartitions bucket, ∀ symbol, read p symbol = p.1) :
    AllToldApart read bucket ↔ OneSymbolEach bucket := by
  refine forall₂_congr fun p hp ↦ ?_
  constructor
  · intro h symbol symbol' hsymbol hsymbol'
    exact h hsymbol hsymbol' ((hread p hp symbol).trans (hread p hp symbol').symm)
  · intro h symbol hsymbol symbol' hsymbol' _
    exact h symbol symbol' hsymbol hsymbol'

/-- No two partitions publish a symbol in common. -/
def AllApart (bucket : Bucket) : Prop :=
  ∀ p ∈ discoverBronzePartitions bucket, ∀ q ∈ discoverBronzePartitions bucket, p ≠ q →
    Apart bucket p q

/-- In the lines of no partition a symbol comes back to an hour it has left. -/
def AllInTurn (localTime : Time → Time) (draws : Partition → RunDraws) (bucket : Bucket) : Prop :=
  ∀ p ∈ discoverBronzePartitions bucket, ∀ lines, bronzeLines bucket p = .ok lines →
    HoursInTurn localTime (draws p).clock lines

/-- Each line that says anything says a sane price, and no time after the run that reads it. -/
def AllSane (draws : Partition → RunDraws) (bucket : Bucket) : Prop :=
  ∀ p ∈ discoverBronzePartitions bucket, ∀ lines, bronzeLines bucket p = .ok lines →
    ∀ line ∈ lines, ∀ c, lineContent line = some c → (0 ≤ c.price ∧ c.price ≤ 10000000) ∧
      c.exchangeTimestamp.getD ((draws p).clock line).1 ≤ ((draws p).clock line).2

/-- The lake is made of the rows of the partitions there are. -/
structure MadeOf (outputDir : List Str) (draws : Partition → RunDraws)
    (rows : Partition → List SilverRow) (s : Orchestration) : Prop where
  rebuilt : ∀ p ∈ discoverBronzePartitions s.bucket,
    rebuild s.bucket ((draws p).materialization p) = .ok (rows p)
  lake : s.lake.Perm ((discoverBronzePartitions s.bucket).flatMap fun p ↦
    newFiles outputDir ((draws p).materialization p) (rows p))

namespace MadeOf

variable {outputDir : List Str} {draws : Partition → RunDraws} {rows : Partition → List SilverRow}
  {s : Orchestration} (h : MadeOf outputDir draws rows s)

include h

theorem products : ∀ file ∈ s.lake, Product outputDir file := by
  intro file hfile
  obtain ⟨p, hp, hfile⟩ := List.mem_flatMap.mp (h.lake.mem_iff.mp hfile)
  exact product_of_mem_newFiles (h.rebuilt p hp) hfile

theorem rows_perm : s.lake.rows.Perm ((discoverBronzePartitions s.bucket).flatMap rows) := by
  refine (h.lake.flatMap_right SilverFile.rows).trans ?_
  rw [List.flatMap_assoc]
  refine List.Perm.of_eq (List.flatMap_congr fun p _ ↦ ?_)
  exact rows_newFiles outputDir _ (rows p)

theorem rows_ne_nil_iff {p : Partition} (hp : p ∈ discoverBronzePartitions s.bucket) :
    rows p ≠ [] ↔ ∃ symbol, Publishes s.bucket p symbol := by
  have hsymbols := exists_row_iff (h.rebuilt p hp)
  constructor
  · intro hne
    obtain ⟨row, hrow⟩ := List.exists_mem_of_ne_nil _ hne
    exact ⟨row.symbol, (hsymbols row.symbol).mp ⟨row, hrow, rfl⟩⟩
  · rintro ⟨symbol, hpublishes⟩
    obtain ⟨row, hrow, -⟩ := (hsymbols symbol).mpr hpublishes
    exact List.ne_nil_of_mem hrow

/-- A property of the files is one of the partitions that any rows come from. -/
theorem forall_files_iff {P : SilverFile → Prop} : (∀ file ∈ s.lake, P file) ↔
    ∀ p ∈ discoverBronzePartitions s.bucket, rows p ≠ [] →
      P { path := ((draws p).materialization p).outPath outputDir, rows := rows p } := by
  simp only [h.lake.mem_iff, List.mem_flatMap, forall_exists_index, and_imp]
  constructor
  · intro hall p hp hne
    refine hall _ p hp ?_
    rw [newFiles, if_neg hne]
    exact List.mem_cons_self
  · intro hall file p hp hfile
    rw [newFiles] at hfile
    split at hfile
    · cases hfile
    · rename_i hne
      exact List.mem_singleton.mp hfile ▸ hall p hp hne

theorem lake_ne_nil_iff : s.lake ≠ [] ↔ WorthATick s.bucket := by
  have hempty : s.lake = [] ↔ ∀ p ∈ discoverBronzePartitions s.bucket, ¬ rows p ≠ [] := by
    rw [List.eq_nil_iff_forall_not_mem]
    exact h.forall_files_iff (P := fun _ ↦ False)
  rw [Ne, hempty, WorthATick, not_forall]
  refine exists_congr fun p ↦ ?_
  rw [Classical.not_imp, not_not]
  exact and_congr_right fun hp ↦ h.rows_ne_nil_iff hp

/-- The lake has the files of one run for each partition. -/
theorem lake_perm : s.lake.Perm (filesOf s.bucket outputDir
    ((discoverBronzePartitions s.bucket).map fun p ↦ (draws p).materialization p)) := by
  refine h.lake.trans (List.Perm.of_eq ?_)
  rw [filesOf, List.flatMap_map]
  refine List.flatMap_congr fun p hp ↦ ?_
  rw [rowsOf, h.rebuilt p hp]

theorem exists_rebuild : ∀ m ∈ (discoverBronzePartitions s.bucket).map fun p ↦
    (draws p).materialization p, ∃ rows, rebuild s.bucket m = .ok rows := by
  intro m hm
  obtain ⟨p, hp, rfl⟩ := List.mem_map.mp hm
  exact ⟨rows p, h.rebuilt p hp⟩

omit h in
/-- What holds of any two of the runs holds of any two of the partitions. -/
theorem pairwise_materialization_iff {R : Partition → Partition → Prop}
    (hsymm : ∀ p q, R p q → R q p) :
    (((discoverBronzePartitions s.bucket).map fun p ↦ (draws p).materialization p).Pairwise
      fun m m' ↦ R m.partition m'.partition) ↔
      ∀ p ∈ discoverBronzePartitions s.bucket, ∀ q ∈ discoverBronzePartitions s.bucket, p ≠ q →
        R p q := by
  have : Std.Symm R := ⟨hsymm⟩
  rw [List.pairwise_map, ← (nodup_discoverBronzePartitions _).pairwise_coe]
  exact .rfl

theorem pairwise_symbolsApart_iff : s.lake.Pairwise SymbolsApart ↔ AllApart s.bucket := by
  have hrows := h.lake_perm.flatMap_right SilverFile.rows
  have hkeys : (s.lake.rows.map SilverRow.naturalKey).Nodup ↔ _ :=
    (hrows.map SilverRow.naturalKey).nodup_iff
  rw [← nodup_naturalKey_rows_iff h.products, hkeys, ← SilverLake.rows, rows_filesOf,
    nodup_naturalKey_iff h.exists_rebuild]
  exact pairwise_materialization_iff fun p q hpq symbol hboth ↦ hpq symbol hboth.symm

theorem readApart_iff (readSymbol : List Str → Str → Str) :
    (s.lake.Pairwise (fun f g ↦ f.ReadApart readSymbol g) ∧
        ∀ file ∈ s.lake, file.ToldApart readSymbol) ↔
      AllReadApart (readFiled readSymbol outputDir) s.bucket ∧
        AllToldApart (readFiled readSymbol outputDir) s.bucket := by
  have hrows := (h.lake_perm.map (SilverFile.readParquet readSymbol)).flatMap_right SilverFile.rows
  have hkeys : ((s.lake.readParquet readSymbol).rows.map SilverRow.naturalKey).Nodup ↔ _ :=
    (hrows.map SilverRow.naturalKey).nodup_iff
  rw [← nodup_naturalKey_readParquet_iff h.products, hkeys, ← SilverLake.rows,
    ← SilverLake.readParquet, rows_readParquet_filesOf, nodup_readAs_iff h.exists_rebuild]
  refine and_congr (pairwise_materialization_iff fun p q hpq symbol hboth ↦
    hpq symbol hboth.symm) ?_
  exact List.forall_mem_map

/-- The quality checks find all of it. -/
theorem foundFiles_eq (houtput : ∀ dir ∈ outputDir, Glob.Plain dir)
    (hdirs : ∀ p ∈ discoverBronzePartitions s.bucket, NoFileNames p) :
    foundFiles outputDir s.lake = s.lake := by
  refine foundFiles_eq_self houtput h.products fun file hfile q hq ↦ ?_
  obtain ⟨p, hp, hfile⟩ := List.mem_flatMap.mp (h.lake.mem_iff.mp hfile)
  rw [path_of_mem_newFiles hfile, dropLast_outPath, partitionDir_inj] at hq
  exact hq ▸ hdirs p hp

theorem inTurn_iff (localTime : Time → Time) :
    (∀ file ∈ s.lake, InTurn Prod.fst (file.rows.map (SilverRow.hour localTime))) ↔
      AllInTurn localTime draws s.bucket := by
  rw [h.forall_files_iff]
  refine forall₂_congr fun p hp ↦ ?_
  obtain ⟨lines, hlines, -⟩ := bind_eq_ok.mp (h.rebuilt p hp)
  have hlines' : bronzeLines s.bucket p = .ok lines := hlines
  have hempty : rows p = [] → InTurn Prod.fst ((rows p).map (SilverRow.hour localTime)) := by
    intro hnil
    rw [hnil]
    exact fun g g' hsub ↦ (nomatch hsub)
  have hrows : (rows p ≠ [] → InTurn Prod.fst ((rows p).map (SilverRow.hour localTime))) ↔
      InTurn Prod.fst ((rows p).map (SilverRow.hour localTime)) :=
    ⟨fun hturn ↦ (em (rows p = [])).elim hempty hturn, fun hturn _ ↦ hturn⟩
  rw [hrows, hours_rebuild hlines (h.rebuilt p hp)]
  simp only [hlines', Except.ok.injEq, forall_eq']
  exact .rfl

theorem sane_iff : (SanePrices s.lake.rows ∧ ClocksAgree s.lake.rows) ↔
    AllSane draws s.bucket := by
  have hrows : (SanePrices s.lake.rows ∧ ClocksAgree s.lake.rows) ↔
      ∀ p ∈ discoverBronzePartitions s.bucket, ∀ row ∈ rows p,
        (0 ≤ row.price ∧ row.price ≤ 10000000) ∧ row.exchangeTimestamp ≤ row.ingestTimestamp := by
    rw [SanePrices, ClocksAgree, ← forall₂_and]
    simp only [h.rows_perm.mem_iff, List.mem_flatMap, forall_exists_index, and_imp]
    exact ⟨fun hall p hp row hrow ↦ hall row p hp hrow, fun hall row p hp hrow ↦ hall p hp row hrow⟩
  rw [hrows]
  refine forall₂_congr fun p hp ↦ ?_
  obtain ⟨lines, hlines, -⟩ := bind_eq_ok.mp (h.rebuilt p hp)
  have hlines' : bronzeLines s.bucket p = .ok lines := hlines
  simp only [hlines', Except.ok.injEq, forall_eq']
  refine forall_rows_iff hlines (h.rebuilt p hp) fun line row c hfrom hc ↦ ?_
  obtain ⟨c', hc', -, hprice, htime⟩ := hfrom.content
  obtain rfl := Option.some.inj (hc.symm.trans hc')
  rw [hprice, htime, hfrom.ingest]
  exact .rfl

end MadeOf

/-! ## After a backfill -/

/-- A lake that holds what runs over the partitions there are make of the bucket, and nothing
else. -/
theorem exists_madeOf {outputDir : List Str} {s : Orchestration} (h : s.Stocked outputDir)
    (hholds : ∀ p ∈ discoverBronzePartitions s.bucket,
      Holds outputDir s.bucket p (partitionFiles outputDir p s.lake)) :
    ∃ draws rows, MadeOf outputDir draws rows s ∧ ∀ p ∈ discoverBronzePartitions s.bucket,
      partitionFiles outputDir p s.lake =
        newFiles outputDir ((draws p).materialization p) (rows p) := by
  have hpartition : ∀ p, ∃ (draws : RunDraws) (rows : List SilverRow),
      p ∈ discoverBronzePartitions s.bucket →
        rebuild s.bucket (draws.materialization p) = .ok rows ∧
          partitionFiles outputDir p s.lake =
            newFiles outputDir (draws.materialization p) rows := by
    intro p
    by_cases hp : p ∈ discoverBronzePartitions s.bucket
    · obtain ⟨draws, result, hrun⟩ := hholds p hp
      obtain ⟨rows, hrows, hfiles⟩ := transformSymbolDate_ok hrun
      exact ⟨draws, rows, fun _ ↦ ⟨hrows, hfiles⟩⟩
    · exact ⟨⟨fun _ ↦ (0, 0), []⟩, [], fun h ↦ absurd h hp⟩
  choose draws rows hmade using hpartition
  refine ⟨draws, rows, ⟨fun p hp ↦ (hmade p hp).1, ?_⟩, fun p hp ↦ (hmade p hp).2⟩
  refine (perm_flatMap_partitionFiles (nodup_discoverBronzePartitions _) h.files).trans ?_
  exact List.Perm.of_eq (List.flatMap_congr fun p hp ↦ (hmade p hp).2)

/-- **What an op leaves that has returned**, with no run raising and nothing landing since it
began: every partition holds what a run makes of the bucket. -/
theorem stocked_of_returned {outputDir : List Str} (houtput : ∀ dir ∈ outputDir, Glob.Plain dir)
    {before after : List Action} {available : List Partition} {s₀ s : Orchestration}
    {op : ReplayOp} {n : ℕ} (hnames : ∀ a ∈ before ++ after, a.KeepsNames ∧ a.KeepsKeys)
    (hbegin : Machine.run (step outputDir) init before = some s₀)
    (hrun : Machine.run (step outputDir) s₀ (.backfill available :: after) = some s)
    (hop : s.replays[s₀.replays.length]? = some op) (hreturned : op.returned = some n)
    (hlands : ∀ o, .land o ∉ after) (hfailures : s.failures = s₀.failures) :
    s.bucket = s₀.bucket ∧ s.Stocked outputDir ∧ ∀ p ∈ discoverBronzePartitions s.bucket,
      Holds outputDir s.bucket p (partitionFiles outputDir p s.lake) := by
  have hnames' : ∀ a ∈ before ++ .backfill available :: after, a.KeepsNames ∧ a.KeepsKeys := by
    intro a ha
    rcases List.mem_append.mp ha with ha | ha
    · exact hnames a (List.mem_append_left _ ha)
    · rcases List.mem_cons.mp ha with rfl | ha
      · exact ⟨trivial, trivial⟩
      · exact hnames a (List.mem_append_right _ ha)
  have hstocked := (stocked_run hnames' (Machine.run_append_eq_some.mpr ⟨s₀, hbegin, hrun⟩)).2
  have hsound₀ := (stocked_run (fun a ha ↦ hnames a (List.mem_append_left _ ha)) hbegin).1
  obtain ⟨s₁, hstep, hrest⟩ := Machine.run_cons_eq_some.mp hrun
  obtain ⟨op', hop', hprogress⟩ := progress_run houtput hsound₀
    (fun a ha ↦ (hnames a (List.mem_append_right _ ha)).1) hstep hrest
  obtain rfl := Option.some.inj (hop.symm.trans hop')
  have hquiet : ∀ o, .land o ∉ .backfill available :: after := by
    intro o ho
    rcases List.mem_cons.mp ho with ho | ho
    · cases ho
    · exact hlands o ho
  have hbucket : s.bucket = s₀.bucket := by
    rw [bucket_of_run hrun, landedIn_eq_nil_iff.mpr hquiet]
    rfl
  refine ⟨hbucket, hstocked, fun p hp ↦ ?_⟩
  rw [hbucket] at hp
  have hduring := (hprogress.rebuilt_of_returned hreturned).2 p hp
    (congrArg (List.countP _) hfailures)
  exact hduring.holds hrun fun o ho ↦ absurd ho (hquiet o)

theorem run_caughtUp : Machine.run (step ["silver".toList]) init
    (lateObject ++ [.backfill [btcFirst], .replayNext 0 (standingStill "1")]) = some caughtUp :=
  Machine.run_append_eq_some.mpr ⟨late, (Option.some_get _).symm, (Option.some_get _).symm⟩

/-- The gold build succeeds, and so the file is in turn. -/
theorem gold_build_caughtUp : buildGoldOp hiveSymbol id caughtUp.lake = .ok () ∧
    ∀ file ∈ caughtUp.lake, InTurn Prod.fst (file.rows.map (SilverRow.hour id)) := by
  have hok : buildGoldOp hiveSymbol id caughtUp.lake = .ok () := by decide +kernel
  obtain ⟨-, -, -, hturn⟩ := (gold_build_iff run_caughtUp hiveSymbol id).mp hok
  exact ⟨hok, hturn⟩

/-- All ten expectations are met. -/
theorem quality_checks_caughtUp : foundFiles ["silver".toList] caughtUp.lake = caughtUp.lake ∧
    caughtUp.lake.Pairwise SymbolsApart ∧
      runSilverQualityChecks ["silver".toList] caughtUp.lake = {
        success := true
        rowCount := 2
        evaluatedExpectations := 10
        successfulExpectations := 10
        unsuccessfulExpectations := 0 } := by
  have hresult : runSilverQualityChecks ["silver".toList] caughtUp.lake = {
      success := true
      rowCount := 2
      evaluatedExpectations := 10
      successfulExpectations := 10
      unsuccessfulExpectations := 0 } := by
    decide +kernel
  have hfound : foundFiles ["silver".toList] caughtUp.lake = caughtUp.lake := by decide +kernel
  obtain ⟨-, hchecks, -⟩ := quality_checks_eq run_caughtUp ["silver".toList]
  obtain ⟨sane, clocked, keyed, -, -, hkeyed, hsuccess⟩ := hchecks (by decide +kernel)
  rw [hresult] at hsuccess
  have hall : true = (sane && clocked && keyed) := congrArg QualityCheckResult.success hsuccess
  simp only [Bool.true_eq, Bool.and_eq_true] at hall
  rw [hfound] at hkeyed
  exact ⟨hfound, hkeyed.mp hall.2, hresult⟩

theorem keepsKeys_lateObject : ∀ a ∈ lateObject, a.KeepsKeys := by
  have hland : ∀ name price, partitionOfKey (tradeObject btcFirst name price).key = some btcFirst →
      (Action.land (tradeObject btcFirst name price)).KeepsKeys := by
    intro name price hof
    have hkey : (tradeObject btcFirst name price).key = partitionPrefix btcFirst.1 btcFirst.2 ++
        ("hour=00/".toList ++ (name.toList ++ ".ndjson".toList)) := by
      rw [tradeObject, List.append_assoc, List.append_assoc]
    exact keepsKeys_of_key_eq (by decide) (by decide) hkey hof
  intro a ha
  rw [lateObject] at ha
  simp only [List.mem_cons, List.not_mem_nil, or_false] at ha
  rcases ha with rfl | rfl | rfl | rfl
  · exact hland _ _ (by decide +kernel)
  · trivial
  · trivial
  · exact hland _ _ (by decide +kernel)

end Orchestration

end PostTrade
