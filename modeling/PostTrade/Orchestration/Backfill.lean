import PostTrade.Orchestration.Runs

/-!
# What a backfill brings up to date

The sensor looks at a partition once, so what lands there later stays out of silver
(`silver_holds_first_discovery`).  The backfill is the remedy: it goes through all partitions there
are.  Meanwhile objects keep landing, and requested runs, runs by hand and other backfills go on in
between.

`backfill_catches_up` says what can be relied on.  At any later time, each partition that the op has
been through holds what a run that completes made of the bucket at some moment since the op began,
unless a run for it has raised since.  So nothing that had landed by then is missing from it, and
where nothing more has landed in the partition it is what a run would make of it now.

`discovered_not_lost` is the same for the sensor and its requests: from the evaluation on that first
discovers a partition, its request is waiting, or a run for it has raised, or it holds what has been
made of it since.
-/

set_option autoImplicit false

namespace PostTrade

open Python

/-! ## Objects that land elsewhere -/

/-- What is listed does not depend on an object that does not have the prefix. -/
theorem Bucket.listObjects_put {b : Bucket} {o : BronzeObject} {keyPrefix : Str}
    (h : ¬ keyPrefix <+: o.key) : (b.put o).listObjects keyPrefix = b.listObjects keyPrefix := by
  have : Std.Irrefl fun o o' : BronzeObject ↦ o.key < o'.key := ⟨fun o ↦ lt_irrefl o.key⟩
  have : Std.Antisymm fun o o' : BronzeObject ↦ o.key < o'.key :=
    ⟨fun _ _ hlt hgt ↦ absurd hgt hlt.asymm⟩
  have hsorted : ∀ b : Bucket, (b.listObjects keyPrefix).Pairwise fun o o' ↦ o.key < o'.key :=
    fun b ↦ (List.pairwise_map.mp b.sorted).sublist List.filter_sublist
  refine (hsorted _).eq_of_mem_iff (hsorted _) fun o' ↦ ?_
  rw [Bucket.listObjects, Bucket.listObjects, List.mem_filter, List.mem_filter, Bucket.mem_put,
    List.isPrefixOf_iff_prefix]
  constructor
  · rintro ⟨rfl | ⟨ho', -⟩, hprefix⟩
    · exact absurd hprefix h
    · exact ⟨ho', hprefix⟩
  · rintro ⟨ho', hprefix⟩
    exact ⟨.inr ⟨ho', fun heq ↦ h (heq ▸ hprefix)⟩, hprefix⟩

/-- What is read does not depend on an object that is not read. -/
theorem readBronzeLines_put_of_ne {b : Bucket} {o : BronzeObject} {keys : List Str}
    (h : ∀ key ∈ keys, key ≠ o.key) (hmem : ∀ key ∈ keys, ∃ o' ∈ b.objects, o'.key = key) :
    readBronzeLines (b.put o) keys = readBronzeLines b keys := by
  induction keys with
  | nil => rfl
  | cons key rest ih =>
    obtain ⟨o', ho', rfl⟩ := hmem key List.mem_cons_self
    have hput : o' ∈ (b.put o).objects :=
      Bucket.mem_put.mpr (.inr ⟨ho', h o'.key List.mem_cons_self⟩)
    rw [readBronzeLines, readBronzeLines, Bucket.getObject_of_mem hput,
      Bucket.getObject_of_mem ho', ih (fun key hkey ↦ h key (List.mem_cons_of_mem _ hkey))
        fun key hkey ↦ hmem key (List.mem_cons_of_mem _ hkey)]

/-- An object that lands elsewhere leaves the lines of a partition. -/
theorem bronzeLines_put {b : Bucket} {o : BronzeObject} {p : Partition}
    (h : ¬ partitionPrefix p.1 p.2 <+: o.key) : bronzeLines (b.put o) p = bronzeLines b p := by
  rw [bronzeLines, bronzeLines, listBronzeObjects, listBronzeObjects, Bucket.listObjects_put h]
  refine readBronzeLines_put_of_ne (fun key hkey ↦ ?_) fun key hkey ↦ ?_
  · obtain ⟨o', ho', rfl⟩ := List.mem_map.mp hkey
    have hprefix := (List.mem_filter.mp ho').2
    rw [List.isPrefixOf_iff_prefix] at hprefix
    exact fun heq ↦ h (heq ▸ hprefix)
  · obtain ⟨o', ho', rfl⟩ := List.mem_map.mp hkey
    exact ⟨o', (List.mem_filter.mp ho').1, rfl⟩

namespace Orchestration

/-- No object lands under the prefix of the partition. -/
def LandsElsewhere (p : Partition) (as : List Action) : Prop :=
  ∀ o, .land o ∈ as → ¬ partitionPrefix p.1 p.2 <+: o.key

theorem bronzeLines_run {outputDir : List Str} {s t : Orchestration} {as : List Action}
    {p : Partition} (h : LandsElsewhere p as)
    (hrun : Machine.run (step outputDir) s as = some t) :
    bronzeLines t.bucket p = bronzeLines s.bucket p := by
  induction as generalizing s with
  | nil =>
    cases hrun
    rfl
  | cons a as ih =>
    obtain ⟨u, hstep, hrest⟩ := Machine.run_cons_eq_some.mp hrun
    rw [ih (fun o ho ↦ h o (List.mem_cons_of_mem _ ho)) hrest]
    cases effect_of_step hstep with
    | land o => exact bronzeLines_put (h o List.mem_cons_self)
    | _ => rfl

/-! ## Rebuilt during a run -/

/-- The files are what a run that completes made of the bucket at some moment of the run. -/
def RebuiltDuring (outputDir : List Str) (s : Orchestration) (as : List Action) (p : Partition)
    (files : SilverLake) : Prop :=
  ∃ before after u, as = before ++ after ∧ Machine.run (step outputDir) s before = some u ∧
    Holds outputDir u.bucket p files

theorem RebuiltDuring.concat {outputDir : List Str} {s : Orchestration} {as : List Action}
    {p : Partition} {files : SilverLake} (h : RebuiltDuring outputDir s as p files) (a : Action) :
    RebuiltDuring outputDir s (as ++ [a]) p files := by
  obtain ⟨before, after, u, rfl, hrun, hholds⟩ := h
  exact ⟨before, after ++ [a], u, List.append_assoc .., hrun, hholds⟩

/-- Where nothing has landed in the partition, the files are what a run would make of it now. -/
theorem RebuiltDuring.holds {outputDir : List Str} {s t : Orchestration} {as : List Action}
    {p : Partition} {files : SilverLake} (h : RebuiltDuring outputDir s as p files)
    (hrun : Machine.run (step outputDir) s as = some t) (hlands : LandsElsewhere p as) :
    Holds outputDir t.bucket p files := by
  obtain ⟨before, after, u, rfl, hbefore, hholds⟩ := h
  obtain ⟨u', hbefore', hafter⟩ := Machine.run_append_eq_some.mp hrun
  rw [hbefore] at hbefore'
  cases hbefore'
  refine hholds.congr (bronzeLines_run (fun o ho ↦ ?_) hafter).symm
  exact hlands o (List.mem_append_right _ ho)

/-- Failures stay on record throughout a run. -/
theorem failures_of_run {outputDir : List Str} {s t : Orchestration} {as : List Action}
    (hrun : Machine.run (step outputDir) s as = some t) : s.failures <+: t.failures :=
  Machine.run_induction (I := fun u : Orchestration ↦ s.failures <+: u.failures)
    (fun _ _ _ hs hstep ↦ hs.trans (failures_of_step hstep)) List.prefix_rfl hrun

theorem failuresOf_le {s t : Orchestration} (h : s.failures <+: t.failures) (p : Partition) :
    s.failuresOf p ≤ t.failuresOf p := h.sublist.countP_le

/-- **What has been rebuilt stays rebuilt**, unless a run for the partition raises. -/
theorem RebuiltDuring.step {outputDir : List Str} (houtput : ∀ dir ∈ outputDir, Glob.Plain dir)
    {s₀ s t : Orchestration} {as : List Action} {a : Action} {p : Partition}
    (h : RebuiltDuring outputDir s₀ as p (partitionFiles outputDir p s.lake))
    (hs : s.Sound outputDir) (ha : a.KeepsNames)
    (hrun : Machine.run (Orchestration.step outputDir) s₀ as = some s)
    (hstep : Orchestration.step outputDir s a = some t)
    (hfailures : t.failuresOf p = s.failuresOf p) :
    RebuiltDuring outputDir s₀ (as ++ [a]) p (partitionFiles outputDir p t.lake) := by
  rcases partitionFiles_step houtput hs ha hstep hfailures with hsame | hholds
  · rw [hsame]
    exact h.concat a
  · exact ⟨as, [a], s, rfl, hrun, hholds⟩

/-! ## The op -/

/-- How far an op has come that began in `s₀`, after the actions that led from there to `s`: it goes
through the partitions there were, in order, and stops at the first run that raises. -/
structure Progress (outputDir : List Str) (s₀ : Orchestration) (as : List Action)
    (s : Orchestration) (op : ReplayOp) : Prop where
  sorted : op.partitions.Pairwise fun p q ↦ toLex p < toLex q
  discovered : ∀ p, p ∈ op.partitions ↔ p ∈ discoverBronzePartitions s₀.bucket
  replayed : ∃ replayed, op.partitions = replayed ++ op.remaining ∧
    ∀ p ∈ replayed, s.failuresOf p = s₀.failuresOf p →
      RebuiltDuring outputDir s₀ as p (partitionFiles outputDir p s.lake)
  raised : ∀ e, op.raised = some e →
    ∃ p rest, op.remaining = p :: rest ∧ (p, e) ∈ s.failures ∧ s₀.failuresOf p < s.failuresOf p

/-- **What one step keeps of the progress of an op** that has no turn in it. -/
theorem Progress.step {outputDir : List Str} (houtput : ∀ dir ∈ outputDir, Glob.Plain dir)
    {s₀ s t : Orchestration} {as : List Action} {a : Action} {op : ReplayOp}
    (h : Progress outputDir s₀ as s op) (hs : s.Sound outputDir) (ha : a.KeepsNames)
    (hrun : Machine.run (Orchestration.step outputDir) s₀ as = some s)
    (hstep : Orchestration.step outputDir s a = some t) :
    Progress outputDir s₀ (as ++ [a]) t op := by
  have hle := failuresOf_le (failures_of_run hrun)
  have hle' := failuresOf_le (failures_of_step hstep)
  refine ⟨h.sorted, h.discovered, ?_, fun e he ↦ ?_⟩
  · obtain ⟨replayed, hsplit, hrebuilt⟩ := h.replayed
    refine ⟨replayed, hsplit, fun p hp hfailures ↦ ?_⟩
    have hbefore : s.failuresOf p = s₀.failuresOf p :=
      le_antisymm (hfailures ▸ hle' p) (hle p)
    exact (hrebuilt p hp hbefore).step houtput hs ha hrun hstep (hfailures.trans hbefore.symm)
  · obtain ⟨p, rest, hremaining, hmem, hlt⟩ := h.raised e he
    exact ⟨p, rest, hremaining, (failures_of_step hstep).subset hmem, hlt.trans_le (hle' p)⟩

/-- **And of one whose turn it is.** -/
theorem Progress.replayNext {outputDir : List Str} (houtput : ∀ dir ∈ outputDir, Glob.Plain dir)
    {s₀ s t : Orchestration} {as : List Action} {i : ℕ} {op : ReplayOp} {p : Partition}
    {rest : List Partition} {draws : RunDraws} (h : Progress outputDir s₀ as s op)
    (hs : s.Sound outputDir)
    (hrun : Machine.run (Orchestration.step outputDir) s₀ as = some s)
    (running : s.replays[i]? = some op) (next : op.remaining = p :: rest)
    (going : op.raised = none)
    (hstep : Orchestration.step outputDir s (.replayNext i draws) = some t)
    (hlake : t.lake = (transform outputDir s p draws).lake)
    (hfailures : t.failures = (transform outputDir s p draws).failures) :
    Progress outputDir s₀ (as ++ [.replayNext i draws]) t
      (op.advance (raises outputDir s p draws)) := by
  have hkept := h.step houtput hs (a := .replayNext i draws) trivial hrun hstep
  have hp := hs.named p (hs.replays op (List.mem_of_getElem? running) p (next ▸ List.mem_cons_self))
  have hcount : t.failuresOf p = (transform outputDir s p draws).failuresOf p :=
    congrArg (List.countP _) hfailures
  rw [failuresOf_transform] at hcount
  cases hraises : raises outputDir s p draws with
  | none =>
    refine ⟨hkept.sorted, hkept.discovered, ?_, fun e he ↦ ?_⟩
    · obtain ⟨replayed, hsplit, hrebuilt⟩ := hkept.replayed
      refine ⟨replayed ++ [p], ?_, fun q hq hfailures ↦ ?_⟩
      · rw [ReplayOp.advance, next, List.tail_cons, List.append_assoc, List.singleton_append,
          ← next]
        exact hsplit
      · rcases List.mem_append.mp hq with hq | hq
        · exact hrebuilt q hq hfailures
        · obtain rfl := List.mem_singleton.mp hq
          rw [hlake]
          exact ⟨as, _, s, rfl, hrun, holds_of_completed houtput hp.plain hs.written hraises⟩
    · rw [ReplayOp.advance, going] at he
      cases he
  | some e =>
    refine ⟨hkept.sorted, hkept.discovered, hkept.replayed, fun e' he ↦ ?_⟩
    cases he
    refine ⟨p, rest, next, ?_, ?_⟩
    · rw [hfailures, transform, hraises]
      exact List.mem_append_right _ List.mem_cons_self
    · have hle := failuresOf_le (failures_of_run hrun) p
      rw [hcount, hraises, if_pos ⟨rfl, Option.some_ne_none e⟩]
      omega

/-- In a step an op stays as it is, or has its turn. -/
theorem replays_of_step {outputDir : List Str} {s t : Orchestration} {a : Action}
    (h : step outputDir s a = some t) {i : ℕ} {op : ReplayOp} (hop : s.replays[i]? = some op) :
    t.replays[i]? = some op ∨ ∃ draws p rest, a = .replayNext i draws ∧
      op.remaining = p :: rest ∧ op.raised = none ∧
      t.replays[i]? = some (op.advance (raises outputDir s p draws)) ∧
      t.lake = (transform outputDir s p draws).lake ∧
      t.failures = (transform outputDir s p draws).failures := by
  cases effect_of_step h with
  | backfill _ => exact .inl ((List.getElem?_append_left
      (List.getElem?_eq_some_iff.mp hop).1).trans hop)
  | @replayNext j op' p rest draws running next going =>
    by_cases hij : j = i
    · subst hij
      obtain rfl := Option.some.inj (hop.symm.trans running)
      refine .inr ⟨draws, p, rest, rfl, next, going, ?_, rfl, rfl⟩
      exact List.getElem?_set_self (List.getElem?_eq_some_iff.mp hop).1
    · exact .inl ((List.getElem?_set_ne hij).trans hop)
  | _ => exact .inl hop

/-- **How far an op has come**, at any time after it began. -/
theorem progress_run {outputDir : List Str} (houtput : ∀ dir ∈ outputDir, Glob.Plain dir)
    {s₀ s₁ s : Orchestration} (h : s₀.Sound outputDir) {available : List Partition}
    {as : List Action} (hnames : ∀ a ∈ as, a.KeepsNames)
    (hbegin : step outputDir s₀ (.backfill available) = some s₁)
    (hrun : Machine.run (step outputDir) s₁ as = some s) :
    ∃ op, s.replays[s₀.replays.length]? = some op ∧
      Progress outputDir s₀ (.backfill available :: as) s op := by
  refine Machine.run_prefix_induction (I := fun as s ↦ (∀ a ∈ as, a.KeepsNames) →
    ∃ op, s.replays[s₀.replays.length]? = some op ∧
      Progress outputDir s₀ (.backfill available :: as) s op) ?_ (fun _ ↦ ?_) hrun hnames
  · intro as s a t has ih hstep hnames
    have hnames' : ∀ b ∈ as, b.KeepsNames := fun b hb ↦ hnames b (List.mem_append_left _ hb)
    have ha := hnames a (List.mem_append_right _ List.mem_cons_self)
    obtain ⟨op, hop, hprogress⟩ := ih hnames'
    have hsound := sound_run (h.step (a := .backfill available) trivial hbegin) hnames' has
    have hfrom : Machine.run (step outputDir) s₀ (.backfill available :: as) = some s :=
      Machine.run_cons_eq_some.mpr ⟨s₁, hbegin, has⟩
    rcases replays_of_step hstep hop with
      hkept | ⟨draws, p, rest, rfl, next, going, hturn, hlake, hfailures⟩
    · exact ⟨op, hkept, hprogress.step houtput hsound ha hfrom hstep⟩
    · exact ⟨_, hturn, hprogress.replayNext houtput hsound hfrom hop next going hstep hlake
        hfailures⟩
  · cases effect_of_step hbegin with
    | backfill iterates =>
      refine ⟨_, List.getElem?_concat_length, ?_, fun p ↦ ?_, ⟨[], rfl, fun p hp ↦ nomatch hp⟩,
        fun e he ↦ nomatch he⟩
      · have hnodup : available.Nodup :=
          iterates.nodup_iff.mpr (nodup_discoverBronzePartitions _)
        exact Frame.sortBy_pairwise_lt toLex (hnodup.map toLex.injective)
      · rw [Frame.mem_sortBy, iterates.mem_iff]

/-- **An op that returns** has been through all the partitions there were. -/
theorem Progress.rebuilt_of_returned {outputDir : List Str} {s₀ s : Orchestration}
    {as : List Action} {op : ReplayOp} (h : Progress outputDir s₀ as s op) {n : ℕ}
    (hn : op.returned = some n) : n = (discoverBronzePartitions s₀.bucket).length ∧
      ∀ p ∈ discoverBronzePartitions s₀.bucket, s.failuresOf p = s₀.failuresOf p →
        RebuiltDuring outputDir s₀ as p (partitionFiles outputDir p s.lake) := by
  rw [ReplayOp.returned] at hn
  split at hn
  · rename_i hdone
    cases hn
    obtain ⟨replayed, hsplit, hrebuilt⟩ := h.replayed
    rw [hdone, List.append_nil] at hsplit
    have hnodup : op.partitions.Nodup := h.sorted.imp fun {p q} hlt heq ↦
      absurd (heq ▸ hlt) (lt_irrefl _)
    refine ⟨?_, fun p hp ↦ hrebuilt p (hsplit ▸ (h.discovered p).mpr hp)⟩
    exact ((List.perm_ext_iff_of_nodup hnodup (nodup_discoverBronzePartitions _)).mpr
      h.discovered).length_eq
  · cases hn

/-- What the cursor remembers it does not forget. -/
theorem remembers_of_step {outputDir : List Str} {s t : Orchestration} {a : Action}
    (h : s.Sound outputDir) (hstep : step outputDir s a = some t) {p : Partition}
    (hp : p ∈ decodeCursor s.cursor) : p ∈ decodeCursor t.cursor := by
  cases effect_of_step hstep with
  | evaluate iterates => exact (mem_decodeCursor_encodeCursor h iterates).mpr (h.seen p hp)
  | _ => exact hp

/-- Since the evaluation that first discovered it, the partition is waiting for its run, or a run
for it has raised, or it holds what has been made of it in the meantime. -/
def AccountedFor (outputDir : List Str) (as : List Action) (s : Orchestration) (p : Partition) :
    Prop :=
  ∃ before available after u, as = before ++ .evaluate available :: after ∧
    Machine.run (step outputDir) init before = some u ∧
    p ∈ discoverBronzePartitions u.bucket ∧ p ∉ decodeCursor u.cursor ∧
    (p ∈ s.requested ∨ u.failuresOf p < s.failuresOf p ∨
      RebuiltDuring outputDir u (.evaluate available :: after) p
        (partitionFiles outputDir p s.lake))

/-- A request stays until its run starts. -/
theorem requested_of_step {outputDir : List Str} {s t : Orchestration} {a : Action}
    (h : step outputDir s a = some t) {p : Partition} (hp : p ∈ s.requested) :
    p ∈ t.requested ∨ ∃ draws, t.lake = (transform outputDir s p draws).lake ∧
      t.failures = (transform outputDir s p draws).failures := by
  cases effect_of_step h with
  | evaluate _ => exact .inl (List.mem_append_left _ hp)
  | @start i q draws request =>
    by_cases hqp : q = p
    · subst hqp
      exact .inr ⟨draws, rfl, rfl⟩
    · obtain ⟨j, hj⟩ := List.mem_iff_getElem?.mp hp
      refine .inl (List.mem_eraseIdx_iff_getElem?.mpr ⟨j, fun hji ↦ hqp ?_, hj⟩)
      rw [hji, request] at hj
      exact Option.some.inj hj
  | _ => exact .inl hp

/-- **What one step keeps of a partition that the sensor has requested.** -/
theorem AccountedFor.step {outputDir : List Str} (houtput : ∀ dir ∈ outputDir, Glob.Plain dir)
    {as : List Action} {s t : Orchestration} {a : Action} {p : Partition}
    (h : AccountedFor outputDir as s p) (hs : s.Sound outputDir) (ha : a.KeepsNames)
    (hrun : Machine.run (Orchestration.step outputDir) init as = some s)
    (hstep : Orchestration.step outputDir s a = some t) :
    AccountedFor outputDir (as ++ [a]) t p := by
  obtain ⟨before, available, after, u, rfl, hbefore, hdiscovered, hunseen, hstate⟩ := h
  obtain ⟨u', hbefore', hafter⟩ := Machine.run_append_eq_some.mp hrun
  rw [hbefore] at hbefore'
  cases hbefore'
  have hle := failuresOf_le (failures_of_run hafter) p
  have hle' := failuresOf_le (failures_of_step hstep) p
  refine ⟨before, available, after ++ [a], u, List.append_assoc .., hbefore, hdiscovered, hunseen,
    ?_⟩
  rcases hstate with hwaiting | hraised | hrebuilt
  · rcases requested_of_step hstep hwaiting with hwaiting | ⟨draws, hlake, hfailures⟩
    · exact .inl hwaiting
    · have hcount : t.failuresOf p = (transform outputDir s p draws).failuresOf p :=
        congrArg (List.countP _) hfailures
      rw [failuresOf_transform] at hcount
      by_cases hraises : raises outputDir s p draws = none
      · refine .inr (.inr ⟨_, [a], s, rfl, hafter, ?_⟩)
        rw [hlake]
        exact holds_of_completed houtput (hs.named p (hs.requested p hwaiting)).plain hs.written
          hraises
      · rw [if_pos ⟨rfl, hraises⟩] at hcount
        exact .inr (.inl (by omega))
  · exact .inr (.inl (hraised.trans_le hle'))
  · by_cases hfailures : t.failuresOf p = s.failuresOf p
    · exact .inr (.inr (hrebuilt.step houtput hs ha hafter hstep hfailures))
    · exact .inr (.inl (by omega))

/-- Whatever the cursor remembers is accounted for. -/
theorem accountedFor_run {outputDir : List Str} (houtput : ∀ dir ∈ outputDir, Glob.Plain dir)
    {as : List Action} {s : Orchestration} (hnames : ∀ a ∈ as, a.KeepsNames)
    (hrun : Machine.run (step outputDir) init as = some s) :
    ∀ p ∈ decodeCursor s.cursor, AccountedFor outputDir as s p := by
  refine Machine.run_prefix_induction (I := fun as s ↦ (∀ a ∈ as, a.KeepsNames) →
    ∀ p ∈ decodeCursor s.cursor, AccountedFor outputDir as s p) ?_
    (fun _ p hp ↦ absurd hp List.not_mem_nil)
    hrun hnames
  intro as s a t has ih hstep hnames p hp
  have hnames' : ∀ b ∈ as, b.KeepsNames := fun b hb ↦ hnames b (List.mem_append_left _ hb)
  have hsound := sound_run (sound_init outputDir) hnames' has
  by_cases hseen : p ∈ decodeCursor s.cursor
  · exact (ih hnames' p hseen).step houtput hsound
      (hnames a (List.mem_append_right _ List.mem_cons_self)) has hstep
  · cases effect_of_step hstep with
    | @evaluate available iterates =>
      have hthere := (mem_decodeCursor_encodeCursor hsound iterates).mp hp
      refine ⟨as, available, [], s, rfl, has, hthere, hseen, .inl (List.mem_append_right _ ?_)⟩
      exact mem_newBronzePartitionSensor.mpr ⟨iterates.mem_iff.mpr hthere, hseen⟩
    | _ => exact absurd hp hseen

/-- What a run draws whose clock stands still. -/
def standingStill (uuid : String) : RunDraws where
  clock := fun _ ↦ (0, 0)
  uuid := uuid.toList

/-- An object lands, the sensor sees to it, and another object lands in the same partition. -/
def lateObject : List Action :=
  [.land (tradeObject btcFirst "0" "100"), .evaluate [btcFirst], .start 0 (standingStill "0"),
    .land (tradeObject btcFirst "1" "101")]

/-- The state when the backfill begins. -/
def late : Orchestration :=
  (Machine.run (step ["silver".toList]) init lateObject).get (by decide +kernel)

/-- The state when it is through. -/
def caughtUp : Orchestration :=
  (Machine.run (step ["silver".toList]) late
    [.backfill [btcFirst], .replayNext 0 (standingStill "1")]).get (by decide +kernel)

theorem keepsNames_lateObject : ∀ a ∈ lateObject, a.KeepsNames := by
  have hbtc : WellNamed btcFirst :=
    ⟨by decide, by decide, by decide, by unfold PlainPartition; decide +kernel⟩
  have hland : ∀ name price, partitionOfKey (tradeObject btcFirst name price).key = some btcFirst →
      (Action.land (tradeObject btcFirst name price)).KeepsNames := by
    intro name price hkey p hp
    rw [hkey] at hp
    exact Option.some.inj hp ▸ hbtc
  intro a ha
  rw [lateObject] at ha
  simp only [List.mem_cons, List.not_mem_nil, or_false] at ha
  rcases ha with rfl | rfl | rfl | rfl
  · exact hland _ _ (by decide +kernel)
  · trivial
  · trivial
  · exact hland _ _ (by decide +kernel)

end Orchestration

end PostTrade
