import PostTrade.Orchestration.Sensor
import PostTrade.Silver.Reruns

/-!
# Runs of the transform in any order

`orchestration/assets.py` and `orchestration/jobs.py`: three things run the transform.  The runs
that the sensor requests start when they start, in any order and long after the evaluation; anybody
may materialize `silver_ticks` for a partition at any time; and `replay_all_bronze_partitions_op`
replays the partitions there were when it began, one after the other.  Any number of these ops may
be under way, objects land all the while, and a run may raise: it is then on the list of failures,
and an op that meets the exception stops there.

One run of the transform is one step.  What two overlapping runs of one partition do to each other
is a matter of its own, in `Silver/Overlap.lean`.

The lake changes in runs only, and each of them leaves the files of the other partitions alone:
`files_of_step` says of one step all that later statements need to know of it.
-/

set_option autoImplicit false

namespace PostTrade

open Python

/-! ## The machine -/

/-- A run of `replay_all_bronze_partitions_op`. -/
structure ReplayOp where
  /-- `sorted(partitions)`. -/
  partitions : List Partition
  /-- The partitions whose turn has not come, and the one it stopped at. -/
  remaining : List Partition
  raised : Option TransformError
  deriving DecidableEq

/-- `len(partitions)`, once the loop is through. -/
def ReplayOp.returned (op : ReplayOp) : Option ℕ :=
  if op.remaining = [] then some op.partitions.length else none

/-- The op after its next run, which may have raised. -/
def ReplayOp.advance (op : ReplayOp) : Option TransformError → ReplayOp
  | none => { op with remaining := op.remaining.tail }
  | some e => { op with raised := some e }

structure Orchestration where
  bucket : Bucket
  cursor : Option Str
  /-- The requests whose runs have not been started. -/
  requested : List Partition
  replays : List ReplayOp
  lake : SilverLake
  /-- The runs that raised. -/
  failures : List (Partition × TransformError)

namespace Orchestration

/-- What happens.  Sets of partitions come with the order in which they are iterated, and runs with
what they draw. -/
inductive Action
  | land (o : BronzeObject)
  /-- `new_bronze_partition_sensor` is evaluated. -/
  | evaluate (available : List Partition)
  /-- The run of a request starts. -/
  | start (i : ℕ) (draws : RunDraws)
  /-- `silver_ticks` is materialized by hand. -/
  | materialize (p : Partition) (draws : RunDraws)
  /-- `batch_backfill_job` is launched. -/
  | backfill (available : List Partition)
  /-- An op comes to its next partition. -/
  | replayNext (i : ℕ) (draws : RunDraws)

/-- Nothing has landed yet. -/
def init : Orchestration where
  bucket := .empty
  cursor := none
  requested := []
  replays := []
  lake := []
  failures := []

/-- The exception that a run for the partition raises. -/
def raises (outputDir : List Str) (s : Orchestration) (p : Partition) (draws : RunDraws) :
    Option TransformError :=
  match (transformSymbolDate s.bucket outputDir s.lake (draws.materialization p)).1 with
  | .ok _ => none
  | .error e => some e

/-- A run of the transform for a partition. -/
def transform (outputDir : List Str) (s : Orchestration) (p : Partition) (draws : RunDraws) :
    Orchestration :=
  { s with
    lake := (transformSymbolDate s.bucket outputDir s.lake (draws.materialization p)).2
    failures := s.failures ++ ((raises outputDir s p draws).map (p, ·)).toList }

def step (outputDir : List Str) (s : Orchestration) : Action → Option Orchestration
  | .land o => some { s with bucket := s.bucket.put o }
  | .evaluate available =>
    if available.Perm (discoverBronzePartitions s.bucket) then
      let (requests, cursor) := newBronzePartitionSensor s.cursor available
      some { s with cursor := some cursor, requested := s.requested ++ requests }
    else none
  | .start i draws =>
    match s.requested[i]? with
    | none => none
    | some p =>
      some { transform outputDir s p draws with requested := s.requested.eraseIdx i }
  | .materialize p draws => some (transform outputDir s p draws)
  | .backfill available =>
    if available.Perm (discoverBronzePartitions s.bucket) then
      let partitions := Frame.sortBy toLex available
      some { s with
        replays := s.replays ++ [{ partitions, remaining := partitions, raised := none }] }
    else none
  | .replayNext i draws =>
    match s.replays[i]? with
    | none => none
    | some op =>
      match op.remaining, op.raised with
      | p :: _, none =>
        some { transform outputDir s p draws with
          replays := s.replays.set i (op.advance (raises outputDir s p draws)) }
      -- it has returned, or it has raised
      | _, _ => none

/-- The number of runs for the partition that raised. -/
def failuresOf (s : Orchestration) (p : Partition) : ℕ :=
  s.failures.countP fun failure ↦ failure.1 = p

/-! ## What a step does -/

/-- What a step can do. -/
inductive Effect (outputDir : List Str) (s : Orchestration) : Action → Orchestration → Prop
  | land (o : BronzeObject) : Effect outputDir s (.land o) { s with bucket := s.bucket.put o }
  | evaluate {available : List Partition}
      (iterates : available.Perm (discoverBronzePartitions s.bucket)) :
      Effect outputDir s (.evaluate available) { s with
        cursor := some (encodeCursor available)
        requested := s.requested ++ (newBronzePartitionSensor s.cursor available).1 }
  | start {i : ℕ} {p : Partition} (draws : RunDraws) (request : s.requested[i]? = some p) :
      Effect outputDir s (.start i draws)
        { transform outputDir s p draws with requested := s.requested.eraseIdx i }
  | materialize (p : Partition) (draws : RunDraws) :
      Effect outputDir s (.materialize p draws) (transform outputDir s p draws)
  | backfill {available : List Partition}
      (iterates : available.Perm (discoverBronzePartitions s.bucket)) :
      Effect outputDir s (.backfill available) { s with
        replays := s.replays ++ [{
          partitions := Frame.sortBy toLex available
          remaining := Frame.sortBy toLex available
          raised := none }] }
  | replayNext {i : ℕ} {op : ReplayOp} {p : Partition} {rest : List Partition} (draws : RunDraws)
      (running : s.replays[i]? = some op) (next : op.remaining = p :: rest)
      (going : op.raised = none) :
      Effect outputDir s (.replayNext i draws) { transform outputDir s p draws with
        replays := s.replays.set i (op.advance (raises outputDir s p draws)) }

theorem effect_of_step {outputDir : List Str} {s t : Orchestration} {a : Action}
    (h : step outputDir s a = some t) : Effect outputDir s a t := by
  cases a with
  | land o =>
    cases h
    exact .land o
  | evaluate available =>
    rw [step] at h
    split at h
    · rename_i iterates
      cases h
      exact .evaluate iterates
    · cases h
  | start i draws =>
    rw [step] at h
    split at h
    · cases h
    · rename_i p request
      cases h
      exact .start draws request
  | materialize p draws =>
    cases h
    exact .materialize p draws
  | backfill available =>
    rw [step] at h
    split at h
    · rename_i iterates
      cases h
      exact .backfill iterates
    · cases h
  | replayNext i draws =>
    rw [step] at h
    split at h
    · cases h
    · rename_i op running
      split at h
      · rename_i p rest next going
        cases h
        exact .replayNext draws running next going
      · cases h

theorem failuresOf_transform (outputDir : List Str) (s : Orchestration) (p q : Partition)
    (draws : RunDraws) : (transform outputDir s q draws).failuresOf p =
      s.failuresOf p + if q = p ∧ raises outputDir s q draws ≠ none then 1 else 0 := by
  rw [failuresOf, transform, List.countP_append, failuresOf]
  cases raises outputDir s q draws with
  | none => simp
  | some e => simp [List.countP_singleton]

/-- Failures stay on record. -/
theorem failures_of_step {outputDir : List Str} {s t : Orchestration} {a : Action}
    (h : step outputDir s a = some t) : s.failures <+: t.failures := by
  cases effect_of_step h with
  | start draws _ => exact List.prefix_append _ _
  | materialize q draws => exact List.prefix_append _ _
  | replayNext draws _ _ _ => exact List.prefix_append _ _
  | _ => exact List.prefix_rfl

/-! ## What has landed -/

/-- The objects that land. -/
def landedIn (as : List Action) : List BronzeObject :=
  as.filterMap fun a ↦
    match a with
    | .land o => some o
    | _ => none

theorem landedIn_eq_nil_iff {as : List Action} : landedIn as = [] ↔ ∀ o, .land o ∉ as := by
  rw [landedIn, List.filterMap_eq_nil_iff]
  constructor
  · exact fun h o ho ↦ nomatch h _ ho
  · intro h a ha
    cases a with
    | land o => exact absurd ha (h o)
    | _ => rfl

/-- The bucket is what has landed in it, and the other actions leave it. -/
theorem bucket_of_run {outputDir : List Str} {s t : Orchestration} {as : List Action}
    (hrun : Machine.run (step outputDir) s as = some t) :
    t.bucket = (landedIn as).foldl Bucket.put s.bucket := by
  induction as generalizing s with
  | nil =>
    cases hrun
    rfl
  | cons a as ih =>
    obtain ⟨u, hstep, hrest⟩ := Machine.run_cons_eq_some.mp hrun
    rw [ih hrest]
    cases effect_of_step hstep <;> rfl

/-! ## Names -/

/-- Objects land under harmless names, and partitions with such names are materialized. -/
def Action.KeepsNames : Action → Prop
  | .land o => ∀ p, partitionOfKey o.key = some p → WellNamed p
  | .materialize p _ => PathNames p
  | _ => True

/-- What holds in every state: names are harmless, every file of the lake is one of the transform,
and what is remembered, requested or still to be replayed is there. -/
structure Sound (outputDir : List Str) (s : Orchestration) : Prop where
  named : ∀ p ∈ discoverBronzePartitions s.bucket, WellNamed p
  seen : ∀ p ∈ decodeCursor s.cursor, p ∈ discoverBronzePartitions s.bucket
  requested : ∀ p ∈ s.requested, p ∈ discoverBronzePartitions s.bucket
  replays : ∀ op ∈ s.replays, ∀ p ∈ op.remaining, p ∈ discoverBronzePartitions s.bucket
  written : Written outputDir s.lake

theorem sound_init (outputDir : List Str) : init.Sound outputDir where
  named p hp := by
    obtain ⟨o, ho, -⟩ := mem_discoverBronzePartitions.mp hp
    cases ho
  seen p hp := nomatch hp
  requested p hp := nomatch hp
  replays op hop := nomatch hop
  written := written_nil outputDir

/-! ## The files of one partition -/

/-- The files are what a run of the transform that completes makes of the bucket. -/
def Holds (outputDir : List Str) (bucket : Bucket) (p : Partition) (files : SilverLake) : Prop :=
  ∃ (draws : RunDraws) (result : SilverTransformResult),
    transformSymbolDate bucket outputDir [] (draws.materialization p) = (.ok result, files)

/-- Where the lines of the partition are still the same, the files are those of a run now. -/
theorem Holds.congr {outputDir : List Str} {b b' : Bucket} {p : Partition} {files : SilverLake}
    (h : Holds outputDir b p files) (hlines : bronzeLines b p = bronzeLines b' p) :
    Holds outputDir b' p files := by
  obtain ⟨draws, result, hrun⟩ := h
  refine ⟨draws, result, ?_⟩
  rwa [← transformSymbolDate_congr (m := draws.materialization p) hlines]

/-- A run that raises leaves the lake, or clears its partition. -/
theorem transformSymbolDate_error {bucket : Bucket} {outputDir : List Str}
    {lake lake' : SilverLake} {m : Materialization} {e : TransformError}
    (h : transformSymbolDate bucket outputDir lake m = (.error e, lake')) :
    lake' = lake ∨ lake' = clearPartition outputDir m.partition lake := by
  rw [transformSymbolDate] at h
  split at h
  · cases h
    exact .inl rfl
  · dsimp only at h
    split at h
    · cases h
      exact .inl rfl
    · split at h
      · cases h
      · split at h
        · cases h
          exact .inr rfl
        · cases h

/-- **A run leaves the files of the other partitions**, whether it completes or raises. -/
theorem partitionFiles_of_ne {bucket : Bucket} {outputDir : List Str} {lake : SilverLake}
    {m : Materialization} (hm : PlainPartition m.partition) (hlake : Written outputDir lake) :
    Written outputDir (transformSymbolDate bucket outputDir lake m).2 ∧
      ∀ p, m.partition ≠ p → partitionFiles outputDir p
        (transformSymbolDate bucket outputDir lake m).2 = partitionFiles outputDir p lake := by
  cases hrun : transformSymbolDate bucket outputDir lake m with
  | mk result lake' =>
    cases result with
    | ok result =>
      obtain ⟨rows, -, rfl⟩ := transformSymbolDate_ok hrun
      refine ⟨(hlake.clearPartition _).append_newFiles m rows, fun p hne ↦ ?_⟩
      rw [partitionFiles_append, partitionFiles_newFiles, if_neg hne, List.append_nil,
        partitionFiles_clearPartition hlake hm hne]
    | error e =>
      rcases transformSymbolDate_error hrun with rfl | rfl
      · exact ⟨hlake, fun p _ ↦ rfl⟩
      · exact ⟨hlake.clearPartition _, fun p hne ↦ partitionFiles_clearPartition hlake hm hne⟩

/-- **A run that completes replaces the files of its own**, whatever they were. -/
theorem holds_of_completed {outputDir : List Str} (houtput : ∀ dir ∈ outputDir, Glob.Plain dir)
    {s : Orchestration} {p : Partition} {draws : RunDraws} (hp : PlainPartition p)
    (hlake : Written outputDir s.lake) (h : raises outputDir s p draws = none) :
    Holds outputDir s.bucket p
      (partitionFiles outputDir p (transform outputDir s p draws).lake) := by
  rw [raises] at h
  split at h
  · rename_i result hresult
    have hrun : transformSymbolDate s.bucket outputDir s.lake (draws.materialization p) =
        (.ok result, (transform outputDir s p draws).lake) := Prod.ext hresult rfl
    obtain ⟨rows, hrows, hafter⟩ := transformSymbolDate_ok hrun
    obtain ⟨fresh, hfresh⟩ := transformSymbolDate_of_rebuild hrows outputDir []
    have hplain : PlainPartition (draws.materialization p).partition := hp
    have hself := (finds_outPath_iff houtput hplain (draws.materialization p)).mpr rfl
    rw [finds_own rfl] at hself
    have hown : partitionFiles outputDir (draws.materialization p).partition
        (transform outputDir s p draws).lake =
        newFiles outputDir (draws.materialization p) rows := by
      rw [hafter, partitionFiles_append, partitionFiles_clearPartition_self hlake hself,
        partitionFiles_newFiles, if_pos rfl, List.nil_append]
    exact ⟨draws, fresh, hfresh.trans (congrArg (Prod.mk (Except.ok fresh)) hown.symm)⟩
  · cases h

/-- A run for one partition, seen from another or the same one. -/
theorem partitionFiles_transform {outputDir : List Str}
    (houtput : ∀ dir ∈ outputDir, Glob.Plain dir) {s : Orchestration} {p q : Partition}
    {draws : RunDraws} (hq : PlainPartition q) (hlake : Written outputDir s.lake)
    (h : (transform outputDir s q draws).failuresOf p = s.failuresOf p) :
    partitionFiles outputDir p (transform outputDir s q draws).lake =
        partitionFiles outputDir p s.lake ∨
      Holds outputDir s.bucket p
        (partitionFiles outputDir p (transform outputDir s q draws).lake) := by
  by_cases hqp : q = p
  · subst hqp
    refine .inr (holds_of_completed houtput hq hlake ?_)
    rw [failuresOf_transform] at h
    by_contra hraises
    rw [if_pos ⟨rfl, hraises⟩] at h
    omega
  · have hplain : PlainPartition (draws.materialization q).partition := hq
    exact .inl ((partitionFiles_of_ne hplain hlake).2 p hqp)

/-! ## Sound states -/

/-- The partitions there are stay there. -/
theorem grows_of_step {outputDir : List Str} {s t : Orchestration} {a : Action}
    (h : step outputDir s a = some t) : s.bucket.Grows t.bucket := by
  cases effect_of_step h with
  | land o => exact s.bucket.grows_put o
  | _ => exact fun o ho ↦ ⟨o, ho, rfl⟩

theorem Sound.transform {outputDir : List Str} {s : Orchestration} (h : s.Sound outputDir)
    {p : Partition} (hp : PlainPartition p) (draws : RunDraws) :
    (transform outputDir s p draws).Sound outputDir where
  named := h.named
  seen := h.seen
  requested := h.requested
  replays := h.replays
  written :=
    have hplain : PlainPartition (draws.materialization p).partition := hp
    (partitionFiles_of_ne hplain h.written).1

/-- After an evaluation the cursor remembers the partitions there are. -/
theorem mem_decodeCursor_encodeCursor {outputDir : List Str} {s : Orchestration}
    (h : s.Sound outputDir) {available : List Partition}
    (iterates : available.Perm (discoverBronzePartitions s.bucket)) {p : Partition} :
    p ∈ decodeCursor (some (encodeCursor available)) ↔ p ∈ discoverBronzePartitions s.bucket := by
  rw [decodeCursor_encodeCursor fun q hq ↦ (h.named q (iterates.mem_iff.mp hq)).undelimited]
  exact iterates.mem_iff

theorem Sound.step {outputDir : List Str} {s t : Orchestration} {a : Action}
    (h : s.Sound outputDir) (ha : a.KeepsNames) (hstep : step outputDir s a = some t) :
    t.Sound outputDir := by
  have hgrows := grows_of_step hstep
  cases effect_of_step hstep with
  | land o =>
    refine ⟨fun p hp ↦ ?_, fun p hp ↦ hgrows.discovers (h.seen p hp),
      fun p hp ↦ hgrows.discovers (h.requested p hp),
      fun op hop p hp ↦ hgrows.discovers (h.replays op hop p hp), h.written⟩
    obtain ⟨o', ho', hprefix, hkey⟩ := mem_discoverBronzePartitions.mp hp
    rcases Bucket.mem_put.mp ho' with rfl | ⟨ho', -⟩
    · exact ha p hkey
    · exact h.named p (mem_discoverBronzePartitions.mpr ⟨o', ho', hprefix, hkey⟩)
  | @evaluate available iterates =>
    refine ⟨h.named, fun p hp ↦ (mem_decodeCursor_encodeCursor h iterates).mp hp, fun p hp ↦ ?_,
      h.replays, h.written⟩
    rcases List.mem_append.mp hp with hp | hp
    · exact h.requested p hp
    · exact iterates.mem_iff.mp (mem_newBronzePartitionSensor.mp hp).1
  | start draws request =>
    have hp := h.requested _ (List.mem_of_getElem? request)
    refine { h.transform (h.named _ hp).plain draws with requested := fun q hq ↦ ?_ }
    exact h.requested q (List.mem_of_mem_eraseIdx hq)
  | materialize p draws => exact h.transform ha.plain draws
  | @backfill available iterates =>
    refine ⟨h.named, h.seen, h.requested, fun op hop p hp ↦ ?_, h.written⟩
    rcases List.mem_append.mp hop with hop | hop
    · exact h.replays op hop p hp
    · obtain rfl := List.mem_singleton.mp hop
      exact iterates.mem_iff.mp (Frame.mem_sortBy.mp hp)
  | @replayNext i op p rest draws running next going =>
    have hop := h.replays op (List.mem_of_getElem? running)
    have hp := hop p (next ▸ List.mem_cons_self)
    refine { h.transform (h.named _ hp).plain draws with replays := fun op' hop' q hq ↦ ?_ }
    rcases List.mem_or_eq_of_mem_set hop' with hop' | rfl
    · exact h.replays op' hop' q hq
    · refine hop q ?_
      rw [ReplayOp.advance.eq_def] at hq
      split at hq
      · exact List.mem_of_mem_tail hq
      · exact hq

/-- **Every state that is reached is sound.** -/
theorem sound_run {outputDir : List Str} {s t : Orchestration} (h : s.Sound outputDir)
    {as : List Action} (hnames : ∀ a ∈ as, a.KeepsNames)
    (hrun : Machine.run (Orchestration.step outputDir) s as = some t) : t.Sound outputDir :=
  Machine.Along.induction (fun _ _ _ hs ha hstep ↦ hs.step ha hstep) h
    (Machine.Along.of_forall hnames) hrun

/-- **One step, seen from one partition.**  Unless a run for it raises, its files stay as they are
or are what a run that completes makes of the bucket. -/
theorem partitionFiles_step {outputDir : List Str} (houtput : ∀ dir ∈ outputDir, Glob.Plain dir)
    {s t : Orchestration} {a : Action} (h : s.Sound outputDir) (ha : a.KeepsNames)
    (hstep : Orchestration.step outputDir s a = some t) {p : Partition}
    (hfailures : t.failuresOf p = s.failuresOf p) :
    partitionFiles outputDir p t.lake = partitionFiles outputDir p s.lake ∨
      Holds outputDir s.bucket p (partitionFiles outputDir p t.lake) := by
  cases effect_of_step hstep with
  | start draws request =>
    have hq := h.named _ (h.requested _ (List.mem_of_getElem? request))
    exact partitionFiles_transform houtput hq.plain h.written hfailures
  | materialize q draws =>
    exact partitionFiles_transform houtput ha.plain h.written hfailures
  | replayNext draws running next going =>
    have hq := h.named _ (h.replays _ (List.mem_of_getElem? running) _
      (next ▸ List.mem_cons_self))
    exact partitionFiles_transform houtput hq.plain h.written hfailures
  | _ => exact .inl rfl

end Orchestration

end PostTrade
