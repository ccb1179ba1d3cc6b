import PostTrade.Silver.Content
import PostTrade.Silver.NaturalKey

/-!
# Rebuilding again and again

Runs of the transform that complete one after the other, over any partitions, with objects landing
in the bucket in between.  A run replaces the files of its own partition and leaves those of the
others (`files_transformSymbolDate`), so at any time the files of a partition are what its latest
run wrote.

`rebuilds_isolated_idempotent` puts this together with what a run gets out of its lines.
-/

set_option autoImplicit false

namespace PostTrade

open Python Numbering

/-- What happens to the bucket and to the lake. -/
inductive LakeEvent
  | landed (o : BronzeObject)
  | ran (m : Materialization)

/-- The bucket and the lake after events, where every run completes. -/
def replay (outputDir : List Str) : Bucket × SilverLake → List LakeEvent →
    Except TransformError (Bucket × SilverLake)
  | state, [] => .ok state
  | (bucket, lake), .landed o :: rest => replay outputDir (bucket.put o, lake) rest
  | (bucket, lake), .ran m :: rest =>
    match transformSymbolDate bucket outputDir lake m with
    | (.error e, _) => .error e
    | (.ok _, lake) => replay outputDir (bucket, lake) rest

/-- The names of a partition have no `/` in them, and no special character of a glob. -/
structure PathNames (p : Partition) : Prop where
  plain : PlainPartition p
  symbol : '/' ∉ p.1
  date : '/' ∉ p.2

/-! ## One event -/

/-- **What a run does to the files of each partition.**  With plain names it replaces those of its
own and leaves the others. -/
theorem files_transformSymbolDate {bucket : Bucket} {outputDir : List Str} {lake lake' : SilverLake}
    {m : Materialization} {result : SilverTransformResult}
    (houtput : ∀ dir ∈ outputDir, Glob.Plain dir) (hm : PathNames m.partition)
    (hlake : Written outputDir lake)
    (h : transformSymbolDate bucket outputDir lake m = (.ok result, lake')) :
    Written outputDir lake' ∧
      (∀ p, m.partition ≠ p → partitionFiles outputDir p lake' = partitionFiles outputDir p lake) ∧
        ∃ lines, bronzeLines bucket m.partition = .ok lines ∧
          Rebuilt lines (SilverLake.rows (partitionFiles outputDir m.partition lake')) := by
  obtain ⟨rows, hrows, rfl⟩ := transformSymbolDate_ok h
  refine ⟨(hlake.clearPartition _).append_newFiles m rows, fun p hne ↦ ?_, ?_⟩
  · rw [partitionFiles_append, partitionFiles_newFiles, if_neg hne, List.append_nil,
      partitionFiles_clearPartition hlake hm.plain hne]
  · have hself := (finds_outPath_iff houtput hm.plain m).mpr rfl
    rw [finds_own rfl] at hself
    obtain ⟨lines, hlines, hrebuilt⟩ := rebuilt_of_rebuild hrows
    refine ⟨lines, hlines, ?_⟩
    rwa [partitionFiles_append, partitionFiles_clearPartition_self hlake hself,
      partitionFiles_newFiles, if_pos rfl, List.nil_append, rows_newFiles]

/-! ## Many events -/

theorem replay_append (outputDir : List Str) (state : Bucket × SilverLake)
    (before after : List LakeEvent) :
    replay outputDir state (before ++ after) =
      (replay outputDir state before).bind fun state ↦ replay outputDir state after := by
  induction before generalizing state with
  | nil => rfl
  | cons event rest ih =>
    obtain ⟨bucket, lake⟩ := state
    cases event with
    | landed o => exact ih _
    | ran m =>
      rw [List.cons_append, replay, replay]
      split
      · rfl
      · exact ih _

@[simp] theorem replay_landed (outputDir : List Str) (bucket : Bucket) (lake : SilverLake)
    (o : BronzeObject) (rest : List LakeEvent) :
    replay outputDir (bucket, lake) (.landed o :: rest) =
      replay outputDir (bucket.put o, lake) rest := rfl

/-- The first of the events is a run that completes. -/
theorem replay_ran {outputDir : List Str} {bucket : Bucket} {lake : SilverLake}
    {m : Materialization} {rest : List LakeEvent} {state : Bucket × SilverLake}
    (h : replay outputDir (bucket, lake) (.ran m :: rest) = .ok state) :
    ∃ result lake₁, transformSymbolDate bucket outputDir lake m = (.ok result, lake₁) ∧
      replay outputDir (bucket, lake₁) rest = .ok state := by
  rw [replay] at h
  split at h
  · cases h
  · rename_i result lake₁ htransform
    exact ⟨result, lake₁, htransform, h⟩

/-- **Events leave the files of the partitions they do not run.** -/
theorem partitionFiles_replay {outputDir : List Str} (houtput : ∀ dir ∈ outputDir, Glob.Plain dir)
    {events : List LakeEvent} {bucket : Bucket} {lake : SilverLake} {state : Bucket × SilverLake}
    (hnames : ∀ m, .ran m ∈ events → PathNames m.partition) (hlake : Written outputDir lake)
    (h : replay outputDir (bucket, lake) events = .ok state) :
    Written outputDir state.2 ∧ ∀ p, (∀ m, .ran m ∈ events → m.partition ≠ p) →
      partitionFiles outputDir p state.2 = partitionFiles outputDir p lake := by
  induction events generalizing bucket lake with
  | nil =>
    cases h
    exact ⟨hlake, fun p _ ↦ rfl⟩
  | cons event rest ih =>
    have hrest : ∀ m, .ran m ∈ rest → PathNames m.partition :=
      fun m hm ↦ hnames m (List.mem_cons_of_mem _ hm)
    cases event with
    | landed o =>
      obtain ⟨hwritten, hothers⟩ := ih hrest hlake h
      exact ⟨hwritten, fun p hp ↦ hothers p fun m hm ↦ hp m (List.mem_cons_of_mem _ hm)⟩
    | ran m =>
      obtain ⟨result, lake₁, htransform, h⟩ := replay_ran h
      obtain ⟨hlake₁, hothers₁, -⟩ :=
        files_transformSymbolDate houtput (hnames m List.mem_cons_self) hlake htransform
      obtain ⟨hwritten, hothers⟩ := ih hrest hlake₁ h
      refine ⟨hwritten, fun p hp ↦ ?_⟩
      rw [hothers p fun m hm ↦ hp m (List.mem_cons_of_mem _ hm),
        hothers₁ p (hp m List.mem_cons_self)]

/-- **What a run of a history leaves**: it finds the state that the events before it left, and
replaces the files of its partition. -/
theorem replay_run {outputDir : List Str} (houtput : ∀ dir ∈ outputDir, Glob.Plain dir)
    {bucket : Bucket} {state : Bucket × SilverLake} {before after : List LakeEvent}
    {m : Materialization} (hnames : ∀ m', .ran m' ∈ before ++ .ran m :: after →
      PathNames m'.partition)
    (h : replay outputDir (bucket, []) (before ++ .ran m :: after) = .ok state) :
    ∃ bucket₁ lake₁ lake₂, replay outputDir (bucket, []) before = .ok (bucket₁, lake₁) ∧
      replay outputDir (bucket, []) (before ++ [.ran m]) = .ok (bucket₁, lake₂) ∧
      replay outputDir (bucket₁, lake₂) after = .ok state ∧
      Written outputDir lake₂ ∧
      (∀ p, m.partition ≠ p →
        partitionFiles outputDir p lake₂ = partitionFiles outputDir p lake₁) ∧
      ∃ lines, bronzeLines bucket₁ m.partition = .ok lines ∧
        Rebuilt lines (SilverLake.rows (partitionFiles outputDir m.partition lake₂)) := by
  rw [replay_append] at h
  obtain ⟨⟨bucket₁, lake₁⟩, hbefore, h⟩ := bind_eq_ok.mp h
  obtain ⟨result, lake₂, htransform, hafter⟩ := replay_ran h
  have hlake₁ := (partitionFiles_replay houtput
    (fun m' hm' ↦ hnames m' (List.mem_append_left _ hm')) (written_nil outputDir) hbefore).1
  obtain ⟨hlake₂, hothers, hown⟩ := files_transformSymbolDate houtput
    (hnames m (List.mem_append_right _ List.mem_cons_self)) hlake₁ htransform
  refine ⟨bucket₁, lake₁, lake₂, hbefore, ?_, hafter, hlake₂, hothers, hown⟩
  rw [replay_append, hbefore]
  show replay outputDir (bucket₁, lake₁) [.ran m] = _
  rw [replay, htransform]
  rfl

/-- **Rebuilds are idempotent, insensitive to order, and isolated.**  Let runs of the transform
complete one after the other, with objects landing in between.  Every file of the lake is in the
directory of a partition that was run.  The files of a partition hold the rows of the lines that its
latest run read: one row for each distinct line that normalizes to a tick, numbered from one on for
every symbol, and the same rows as any rebuild from the same lines leaves.  And a run leaves the
files of all other partitions as they are. -/
theorem rebuilds_isolated_idempotent {outputDir : List Str} {bucket bucket' : Bucket}
    {lake : SilverLake} {events : List LakeEvent} (houtput : ∀ dir ∈ outputDir, Glob.Plain dir)
    (hnames : ∀ m, .ran m ∈ events → PathNames m.partition)
    (h : replay outputDir (bucket, []) events = .ok (bucket', lake)) :
    (∀ file ∈ lake, ∃ m, .ran m ∈ events ∧
      file.path.dropLast = partitionDir outputDir m.partition) ∧
    (∀ before m after, events = before ++ .ran m :: after →
      (∀ m', .ran m' ∈ after → m'.partition ≠ m.partition) →
      ∃ bucket₁ lake₁ lines, replay outputDir (bucket, []) before = .ok (bucket₁, lake₁) ∧
        bronzeLines bucket₁ m.partition = .ok lines ∧
        Rebuilt lines (SilverLake.rows (partitionFiles outputDir m.partition lake)) ∧
        ∀ lines' rows', (∀ line, line ∈ lines' ↔ line ∈ lines) → Rebuilt lines' rows' →
          SameRows lines (SilverLake.rows (partitionFiles outputDir m.partition lake)) rows') ∧
    ∀ before m after, events = before ++ .ran m :: after →
      ∃ bucket₁ lake₁ lake₂, replay outputDir (bucket, []) before = .ok (bucket₁, lake₁) ∧
        replay outputDir (bucket, []) (before ++ [.ran m]) = .ok (bucket₁, lake₂) ∧
        ∀ p, p ≠ m.partition →
          partitionFiles outputDir p lake₂ = partitionFiles outputDir p lake₁ := by
  refine ⟨fun file hfile ↦ ?_, ?_, ?_⟩
  · obtain ⟨hwritten, hothers⟩ := partitionFiles_replay houtput hnames (written_nil outputDir) h
    obtain ⟨m, hm⟩ := hwritten file hfile
    have hdir : file.path.dropLast = partitionDir outputDir m.partition := by
      rw [hm, dropLast_outPath]
    by_contra hnone
    -- a partition that was never run has no files
    have hfiles := hothers m.partition fun m' hm' heq ↦ hnone ⟨m', hm', by rw [hdir, heq]⟩
    have hmem : file ∈ partitionFiles outputDir m.partition lake :=
      List.mem_filter.mpr ⟨hfile, decide_eq_true hdir⟩
    rw [hfiles] at hmem
    cases hmem
  · rintro before m after rfl hlast
    obtain ⟨bucket₁, lake₁, lake₂, hbefore, -, hafter, hlake₂, -, lines, hlines, hrebuilt⟩ :=
      replay_run houtput hnames h
    have hfiles := (partitionFiles_replay houtput (fun m' hm' ↦
      hnames m' (List.mem_append_right _ (List.mem_cons_of_mem _ hm'))) hlake₂ hafter).2
        m.partition hlast
    rw [← hfiles] at hrebuilt
    exact ⟨bucket₁, lake₁, lines, hbefore, hlines, hrebuilt,
      fun lines' rows' hsame hrebuilt' ↦ hrebuilt.same hrebuilt' hsame⟩
  · rintro before m after rfl
    obtain ⟨bucket₁, lake₁, lake₂, hbefore, hthrough, -, -, hothers, -⟩ :=
      replay_run houtput hnames h
    exact ⟨bucket₁, lake₁, lake₂, hbefore, hthrough, fun p hp ↦ hothers p (Ne.symm hp)⟩

/-! ### Two runs of one partition -/

def firstTrade : BronzeObject := tradeObject btcFirst "0" "100"
def secondTrade : BronzeObject := tradeObject btcFirst "1" "101"

/-- The rows of the two trades. -/
def tradeRows : List SilverRow :=
  [tradeRow "BTC-USD".toList, { tradeRow "BTC-USD".toList with sequence := 2, price := 101 }]

/-- The partition is run once for each of them. -/
def twoRuns : List LakeEvent :=
  [.landed firstTrade, .ran (runFor btcFirst), .landed secondTrade, .ran (runFor btcFirst)]

theorem rebuilds_isolated_idempotent_two_runs :
    ∃ lines, bronzeLines ((Bucket.empty.put firstTrade).put secondTrade) btcFirst = .ok lines ∧
      Rebuilt lines tradeRows := by
  have hlake : (replay ["silver".toList] (Bucket.empty, []) twoRuns).map Prod.snd =
      .ok [⟨partitionDir ["silver".toList] btcFirst ++ ["part-0.parquet".toList], tradeRows⟩] := by
    decide +kernel
  obtain ⟨⟨bucket, lake⟩, hreplay, hfiles⟩ := map_eq_ok.mp hlake
  have hnames : ∀ m, .ran m ∈ twoRuns → PathNames m.partition := by
    intro m hm
    have hrun : m = runFor btcFirst := by simpa [twoRuns] using hm
    rw [hrun]
    exact ⟨by unfold PlainPartition; decide +kernel, by decide +kernel, by decide +kernel⟩
  obtain ⟨-, hlast, -⟩ := rebuilds_isolated_idempotent (by decide +kernel) hnames hreplay
  obtain ⟨bucket₁, lake₁, lines, hbefore, hlines, hrebuilt, -⟩ :=
    hlast [.landed firstTrade, .ran (runFor btcFirst), .landed secondTrade] (runFor btcFirst) []
      rfl (fun m hm ↦ nomatch hm)
  rw [replay_landed] at hbefore
  obtain ⟨result, lake₂, -, hafter⟩ := replay_ran hbefore
  rw [replay_landed, replay, Except.ok.injEq] at hafter
  have hbucket : (Bucket.empty.put firstTrade).put secondTrade = bucket₁ :=
    congrArg Prod.fst hafter
  have hrows : SilverLake.rows (partitionFiles ["silver".toList] (runFor btcFirst).partition
      [⟨partitionDir ["silver".toList] btcFirst ++ ["part-0.parquet".toList], tradeRows⟩]) =
      tradeRows := by
    decide +kernel
  rw [← hfiles] at hrows
  rw [hrows] at hrebuilt
  rw [hbucket]
  exact ⟨lines, hlines, hrebuilt⟩

/-! ### An output directory in brackets -/

/-- One trade, and two runs that each draw a name of their own. -/
def runTwice : List LakeEvent :=
  [.landed firstTrade, .ran (runFor btcFirst), .ran { runFor btcFirst with uuid := "1".toList }]

/-- In a glob `[silver]` stands for one letter, so the second run does not find the file of the
first one: the trade has two rows, with one number. -/
theorem bracketed_output_keeps_stale_rows :
    (∀ m, .ran m ∈ runTwice → PathNames m.partition) ∧
      ∃ bucket lake, replay ["[silver]".toList] (Bucket.empty, []) runTwice = .ok (bucket, lake) ∧
        SilverLake.rows (partitionFiles ["[silver]".toList] btcFirst lake) =
          [tradeRow "BTC-USD".toList, tradeRow "BTC-USD".toList] ∧
        ∀ lines, ¬ Rebuilt lines
          (SilverLake.rows (partitionFiles ["[silver]".toList] btcFirst lake)) := by
  have hlake : (replay ["[silver]".toList] (Bucket.empty, []) runTwice).map Prod.snd = .ok [
      ⟨partitionDir ["[silver]".toList] btcFirst ++ ["part-0.parquet".toList],
        [tradeRow "BTC-USD".toList]⟩,
      ⟨partitionDir ["[silver]".toList] btcFirst ++ ["part-1.parquet".toList],
        [tradeRow "BTC-USD".toList]⟩] := by
    decide +kernel
  have hnames : ∀ m, .ran m ∈ runTwice → PathNames m.partition := by
    intro m hm
    have hpartition : m.partition = btcFirst := by
      simp only [runTwice, List.mem_cons, reduceCtorEq, LakeEvent.ran.injEq, List.not_mem_nil,
        or_false, false_or] at hm
      rcases hm with rfl | rfl
      · rfl
      · rfl
    rw [hpartition]
    exact ⟨by unfold PlainPartition; decide +kernel, by decide +kernel, by decide +kernel⟩
  obtain ⟨⟨bucket, lake⟩, hreplay, hfiles⟩ := map_eq_ok.mp hlake
  have hrows : SilverLake.rows (partitionFiles ["[silver]".toList] btcFirst lake) =
      [tradeRow "BTC-USD".toList, tradeRow "BTC-USD".toList] := by
    rw [show lake = _ from hfiles]
    decide +kernel
  refine ⟨hnames, bucket, lake, hreplay, hrows, fun lines hrebuilt ↦ ?_⟩
  rw [hrows] at hrebuilt
  exact absurd hrebuilt.numbered.nodup (by decide +kernel)

end PostTrade
