import PostTrade.Lib.Machine
import PostTrade.Silver.Content
import PostTrade.Silver.NaturalKey

/-!
# Overlapping rebuilds

Two runs of the transform for one partition, step by step: each lists the stale files, removes them
one after the other, and writes its own file.  Removing a file that the other run has removed
already raises, so the runs that complete are those that do not get in each other's way there.

Nothing holds the runs apart.  A run does not find the file of one that has listed and not yet
written, and both files stay.  `overlap_rebuilt_iff` says that the partition then holds its rows
once only where one run comes wholly after the other, or where there are no rows at all.
-/

set_option autoImplicit false

namespace PostTrade

open Python Numbering

namespace Overlap

/-! ## Two runs on one lake -/

inductive Run
  | first
  | second
  deriving DecidableEq, Repr

/-- The other run. -/
def Run.other : Run → Run
  | .first => .second
  | .second => .first

/-- How far a run is: the stale files that it has listed and not yet removed. -/
inductive Progress
  | started
  | clearing (stale : List (List Str))
  | completed
  /-- `os.remove` did not find a file that was listed. -/
  | raised
  deriving DecidableEq

/-- The run takes no more steps. -/
def Progress.ended : Progress → Bool
  | .completed | .raised => true
  | _ => false

/-- The files, and how far both runs are. -/
structure Race where
  lake : SilverLake
  progress : Run → Progress

/-- A step of a run.  `glob.glob` lists the files it finds in any order. -/
inductive Action
  | list (run : Run) (stale : List (List Str))
  | next (run : Run)

/-- The run that takes the step. -/
def Action.run : Action → Run
  | .list run _ => run
  | .next run => run

/-- What a glob of the partition lists, in the order of the lake. -/
def found (outputDir : List Str) (p : Partition) (lake : SilverLake) : List (List Str) :=
  (lake.map SilverFile.path).filter (finds outputDir p)

variable (outputDir : List Str) (p : Partition) (m : Run → Materialization)
  (rows : Run → List SilverRow)

/-- A step of a run that has listed the stale files: it removes the next of them, or writes its
file. -/
def advance (r : Run) (lake : SilverLake) : Progress → Option (SilverLake × Progress)
  | .clearing (path :: rest) =>
    if path ∈ lake.map SilverFile.path then
      some (lake.filter fun file ↦ file.path ≠ path, .clearing rest)
    else some (lake, .raised)
  | .clearing [] => some (lake ++ newFiles outputDir (m r) (rows r), .completed)
  | _ => none

def step (s : Race) : Action → Option Race
  | .list r stale =>
    if s.progress r = .started ∧ stale.Perm (found outputDir p s.lake) then
      some { s with progress := Function.update s.progress r (.clearing stale) }
    else none
  | .next r =>
    (advance outputDir m rows r s.lake (s.progress r)).map fun next ↦
      { lake := next.1, progress := Function.update s.progress r next.2 }

/-- Both runs are about to begin. -/
def start (lake : SilverLake) : Race where
  lake := lake
  progress := fun _ ↦ .started

/-- One run takes all its steps before the other one begins. -/
def Serial (actions : List Action) : Prop :=
  ∃ r before after, actions = before ++ after ∧ (∀ a ∈ before, a.run = r) ∧
    ∀ a ∈ after, a.run = r.other

theorem Run.eq_other {r r' : Run} (h : r' ≠ r) : r' = r.other := by
  cases r <;> cases r' <;> first | rfl | exact absurd rfl h

theorem Run.other_ne (r : Run) : r.other ≠ r := by
  cases r <;> exact fun h ↦ nomatch h

/-! ## One step -/

variable {outputDir p m rows}

/-- **What a step does**: a run that has started lists the stale files; one that has listed them
removes the next, or raises because it is gone, or writes its file when none is left. -/
theorem step_cases {s s' : Race} {a : Action} (h : step outputDir p m rows s a = some s') :
    (∃ r stale, a = .list r stale ∧ s.progress r = .started ∧
      stale.Perm (found outputDir p s.lake) ∧
      s' = ⟨s.lake, Function.update s.progress r (.clearing stale)⟩) ∨
    (∃ r path rest, a = .next r ∧ s.progress r = .clearing (path :: rest) ∧
      path ∈ s.lake.map SilverFile.path ∧
      s' = ⟨s.lake.filter fun file ↦ file.path ≠ path,
        Function.update s.progress r (.clearing rest)⟩) ∨
    (∃ r path rest, a = .next r ∧ s.progress r = .clearing (path :: rest) ∧
      path ∉ s.lake.map SilverFile.path ∧
      s' = ⟨s.lake, Function.update s.progress r .raised⟩) ∨
    ∃ r, a = .next r ∧ s.progress r = .clearing [] ∧
      s' = ⟨s.lake ++ newFiles outputDir (m r) (rows r),
        Function.update s.progress r .completed⟩ := by
  cases a with
  | list r stale =>
    rw [step] at h
    split at h
    · rename_i hlist
      cases h
      exact .inl ⟨r, stale, rfl, hlist.1, hlist.2, rfl⟩
    · cases h
  | next r =>
    rw [step, Option.map_eq_some_iff] at h
    obtain ⟨next, hadvance, rfl⟩ := h
    cases hprogress : s.progress r with
    | clearing stale =>
      rw [hprogress] at hadvance
      cases stale with
      | nil =>
        cases hadvance
        exact .inr (.inr (.inr ⟨r, rfl, hprogress, rfl⟩))
      | cons path rest =>
        rw [advance] at hadvance
        split at hadvance
        · rename_i hfound
          cases hadvance
          exact .inr (.inl ⟨r, path, rest, rfl, hprogress, hfound, rfl⟩)
        · rename_i hgone
          cases hadvance
          exact .inr (.inr (.inl ⟨r, path, rest, rfl, hprogress, hgone, rfl⟩))
    | started =>
      rw [hprogress] at hadvance
      cases hadvance
    | completed =>
      rw [hprogress] at hadvance
      cases hadvance
    | raised =>
      rw [hprogress] at hadvance
      cases hadvance

/-- The run that takes a step had not ended, and it has begun. -/
theorem progress_step {s s' : Race} {a : Action} (h : step outputDir p m rows s a = some s') :
    (s.progress a.run).ended = false ∧ s'.progress a.run ≠ .started := by
  obtain ⟨r, stale, rfl, hr, -, rfl⟩ | ⟨r, path, rest, rfl, hr, -, rfl⟩ |
    ⟨r, path, rest, rfl, hr, -, rfl⟩ | ⟨r, rfl, hr, rfl⟩ := step_cases h
  all_goals
    refine ⟨by rw [Action.run, hr]; rfl, fun hs ↦ ?_⟩
    rw [Action.run] at hs
    simp only [Function.update_self, reduceCtorEq] at hs

/-- The other run stays where it is. -/
theorem progress_step_of_ne {s s' : Race} {a : Action}
    (h : step outputDir p m rows s a = some s') {r : Run} (hr : r ≠ a.run) :
    s'.progress r = s.progress r := by
  obtain ⟨r', stale, rfl, -, -, rfl⟩ | ⟨r', path, rest, rfl, -, -, rfl⟩ |
    ⟨r', path, rest, rfl, -, -, rfl⟩ | ⟨r', rfl, -, rfl⟩ := step_cases h
  all_goals exact Function.update_of_ne hr _ _

/-- A run that is still to begin has taken no step. -/
theorem run_ne_of_started {s s' : Race} {actions : List Action}
    (h : Machine.run (step outputDir p m rows) s actions = some s') {r : Run}
    (hr : s'.progress r = .started) : ∀ a ∈ actions, a.run ≠ r := by
  induction actions generalizing s with
  | nil => exact fun a ha ↦ nomatch ha
  | cons a rest ih =>
    obtain ⟨u, ha, hrest⟩ := Machine.run_cons_eq_some.mp h
    intro b hb
    rcases List.mem_cons.mp hb with rfl | hb
    · -- a run that has begun stays so
      rintro rfl
      have hbegun : s'.progress b.run ≠ .started := by
        refine Machine.run_induction (I := fun s ↦ s.progress b.run ≠ .started) ?_
          (progress_step ha).2 hrest
        intro t c t' ht hc
        by_cases hsame : b.run = c.run
        · rw [hsame]
          exact (progress_step hc).2
        · rwa [progress_step_of_ne hc hsame]
      exact hbegun hr
    · exact ih hrest b hb

/-- A run that has ended takes no more steps. -/
theorem run_ne_of_ended {s s' : Race} {actions : List Action}
    (h : Machine.run (step outputDir p m rows) s actions = some s') {r : Run}
    (hr : (s.progress r).ended = true) : ∀ a ∈ actions, a.run ≠ r := by
  induction actions generalizing s with
  | nil => exact fun a ha ↦ nomatch ha
  | cons a rest ih =>
    obtain ⟨u, ha, hrest⟩ := Machine.run_cons_eq_some.mp h
    have hne : a.run ≠ r := by
      rintro rfl
      rw [(progress_step ha).1] at hr
      cases hr
    intro b hb
    rcases List.mem_cons.mp hb with rfl | hb
    · exact hne
    · exact ih hrest (by rw [progress_step_of_ne ha (Ne.symm hne), hr]) b hb

/-- Steps of one run leave the other where it is. -/
theorem progress_run_of_ne {s s' : Race} {actions : List Action}
    (h : Machine.run (step outputDir p m rows) s actions = some s') {r : Run}
    (hr : ∀ a ∈ actions, a.run ≠ r) : s'.progress r = s.progress r := by
  have hkeep : ∀ t a t', t.progress r = s.progress r → a.run ≠ r →
      step outputDir p m rows t a = some t' → t'.progress r = s.progress r :=
    fun t a t' ht ha hstep ↦ (progress_step_of_ne hstep (Ne.symm ha)).trans ht
  exact Machine.Along.induction hkeep rfl (Machine.Along.of_forall hr) h

/-! ## One run after the other -/

/-- A run that takes the remaining steps alone removes what it has listed and writes its file. -/
theorem lake_of_clearing {s s' : Race} {actions : List Action} {r : Run}
    (h : Machine.run (step outputDir p m rows) s actions = some s')
    (hown : ∀ a ∈ actions, a.run = r) {stale : List (List Str)}
    (hs : s.progress r = .clearing stale) (hs' : s'.progress r = .completed) :
    s'.lake = (s.lake.filter fun file ↦ file.path ∉ stale) ++
      newFiles outputDir (m r) (rows r) := by
  induction actions generalizing s stale with
  | nil =>
    cases h
    rw [hs] at hs'
    cases hs'
  | cons a rest ih =>
    obtain ⟨u, ha, hrest⟩ := Machine.run_cons_eq_some.mp h
    have hrun := hown a List.mem_cons_self
    have hown' : ∀ b ∈ rest, b.run = r := fun b hb ↦ hown b (List.mem_cons_of_mem _ hb)
    obtain ⟨r', listed, rfl, hr, -, rfl⟩ | ⟨r', path, todo, rfl, hr, -, rfl⟩ |
      ⟨r', path, todo, rfl, hr, -, rfl⟩ | ⟨r', rfl, hr, rfl⟩ := step_cases ha
    all_goals
      obtain rfl : r' = r := hrun
      rw [hr] at hs
      cases hs
    · rw [ih hrest hown' (Function.update_self ..), List.filter_filter]
      congr 1
      refine List.filter_congr fun file _ ↦ ?_
      rw [← Bool.decide_and]
      simp only [List.mem_cons, not_or, ne_eq, and_comm]
    · -- a run that has raised does not complete
      have hraised := Function.update_self r' Progress.raised s.progress
      have hends := run_ne_of_ended hrest (congrArg Progress.ended hraised)
      have hstill := progress_run_of_ne hrest hends
      rw [hs'] at hstill
      cases hstill.trans hraised
    · have hends := run_ne_of_ended hrest
        (congrArg Progress.ended (Function.update_self r' Progress.completed s.progress))
      obtain rfl : rest = [] :=
        List.eq_nil_iff_forall_not_mem.mpr fun b hb ↦ hends b hb (hown' b hb)
      cases hrest
      simp

/-- **A run that takes all its steps alone** does what `transformSymbolDate` does to the lake. -/
theorem lake_of_alone {s s' : Race} {actions : List Action} {r : Run}
    (h : Machine.run (step outputDir p m rows) s actions = some s')
    (hown : ∀ a ∈ actions, a.run = r) (hs : s.progress r = .started)
    (hs' : s'.progress r = .completed) :
    s'.lake = clearPartition outputDir p s.lake ++ newFiles outputDir (m r) (rows r) := by
  cases actions with
  | nil =>
    cases h
    rw [hs] at hs'
    cases hs'
  | cons a rest =>
    obtain ⟨u, ha, hrest⟩ := Machine.run_cons_eq_some.mp h
    have hrun := hown a List.mem_cons_self
    obtain ⟨r', listed, rfl, hr, hlisted, rfl⟩ | ⟨r', path, todo, rfl, hr, -, rfl⟩ |
      ⟨r', path, todo, rfl, hr, -, rfl⟩ | ⟨r', rfl, hr, rfl⟩ := step_cases ha
    all_goals obtain rfl : r' = r := hrun
    · rw [lake_of_clearing hrest (fun b hb ↦ hown b (List.mem_cons_of_mem _ hb))
        (Function.update_self ..) hs', clearPartition]
      congr 1
      refine List.filter_congr fun file hfile ↦ ?_
      have hmem : file.path ∈ listed ↔ finds outputDir p file.path = true := by
        rw [hlisted.mem_iff, found, List.mem_filter, and_iff_right (List.mem_map_of_mem hfile)]
      simp only [hmem, Bool.not_eq_true, Bool.decide_eq_false]
    all_goals
      rw [hr] at hs
      cases hs

/-- The lake after two runs, one after the other. -/
theorem lake_of_serial {lake : SilverLake} {s : Race} {actions : List Action}
    (h : Machine.run (step outputDir p m rows) (start lake) actions = some s)
    (hdone : ∀ r, s.progress r = .completed) (hserial : Serial actions) :
    ∃ r, s.lake = clearPartition outputDir p
      (clearPartition outputDir p lake ++ newFiles outputDir (m r) (rows r)) ++
        newFiles outputDir (m r.other) (rows r.other) := by
  obtain ⟨r, before, after, rfl, hbefore, hafter⟩ := hserial
  obtain ⟨u, hu, hs⟩ := Machine.run_append_eq_some.mp h
  have hfirst : u.progress r = .completed := by
    rw [← progress_run_of_ne hs fun a ha ↦ by rw [hafter a ha]; exact r.other_ne]
    exact hdone r
  have hsecond : u.progress r.other = .started :=
    progress_run_of_ne hu fun a ha ↦ by rw [hbefore a ha]; exact r.other_ne.symm
  refine ⟨r, ?_⟩
  rw [lake_of_alone hs hafter hsecond (hdone _), lake_of_alone hu hbefore rfl hfirst]
  rfl

/-! ## Both files stay -/

variable (outputDir m) in
/-- A step that lists does not list the file of the other run. -/
def Overlooks (a : Action) : Prop :=
  ∀ r stale, a = .list r stale → (m r.other).outPath outputDir ∉ stale

variable (outputDir m rows) in
/-- No run is about to remove the file of the other, and the files of runs that have completed are
there. -/
def Kept (s : Race) : Prop :=
  ∀ r, (∀ stale, s.progress r = .clearing stale → (m r.other).outPath outputDir ∉ stale) ∧
    (s.progress r = .completed → newFiles outputDir (m r) (rows r) ⊆ s.lake)

theorem kept_step (s : Race) (a : Action) (s' : Race) (hs : Kept outputDir m rows s)
    (ha : Overlooks outputDir m a) (h : step outputDir p m rows s a = some s') :
    Kept outputDir m rows s' := by
  intro r
  by_cases hr : r = a.run
  · obtain ⟨r', listed, rfl, -, -, rfl⟩ | ⟨r', path, todo, rfl, hclearing, -, rfl⟩ |
      ⟨r', path, todo, rfl, -, -, rfl⟩ | ⟨r', rfl, -, rfl⟩ := step_cases h
    all_goals
      obtain rfl : r = r' := hr
      simp only [Function.update_self, Progress.clearing.injEq, reduceCtorEq, forall_eq',
        false_imp_iff, implies_true, and_true, true_and, forall_const]
    · exact ha r listed rfl
    · exact fun hmem ↦ (hs r).1 _ hclearing (List.mem_cons_of_mem _ hmem)
    · exact List.subset_append_right _ _
  · rw [progress_step_of_ne h hr]
    refine ⟨(hs r).1, fun hdone ↦ ?_⟩
    have hlake := (hs r).2 hdone
    obtain ⟨r', listed, rfl, -, -, rfl⟩ | ⟨r', path, todo, rfl, hclearing, -, rfl⟩ |
      ⟨r', path, todo, rfl, -, -, rfl⟩ | ⟨r', rfl, -, rfl⟩ := step_cases h
    · exact hlake
    · -- the file that is removed is not the one of the other run
      obtain rfl : r = r'.other := Run.eq_other hr
      intro file hfile
      refine List.mem_filter.mpr ⟨hlake hfile, decide_eq_true fun heq ↦ ?_⟩
      refine (hs r').1 _ hclearing ?_
      rw [← path_of_mem_newFiles hfile, heq]
      exact List.mem_cons_self
    · exact hlake
    · exact fun file hfile ↦ List.mem_append_left _ (hlake hfile)

variable (outputDir m) in
/-- The file of a run is not there before the run has completed. -/
def Fresh (s : Race) : Prop :=
  ∀ r, s.progress r ≠ .completed → ∀ file ∈ s.lake, file.path ≠ (m r).outPath outputDir

theorem fresh_step (hnames : ∀ r, (m r.other).outPath outputDir ≠ (m r).outPath outputDir)
    (s : Race) (a : Action) (s' : Race) (hs : Fresh outputDir m s)
    (h : step outputDir p m rows s a = some s') : Fresh outputDir m s' := by
  intro r hr file hfile
  have hbefore : s.progress r ≠ .completed := by
    intro hdone
    by_cases hrun : r = a.run
    · have hactive := (progress_step h).1
      rw [← hrun, hdone] at hactive
      cases hactive
    · exact hr (by rw [progress_step_of_ne h hrun, hdone])
  obtain ⟨r', listed, rfl, -, -, rfl⟩ | ⟨r', path, todo, rfl, -, -, rfl⟩ |
    ⟨r', path, todo, rfl, -, -, rfl⟩ | ⟨r', rfl, -, rfl⟩ := step_cases h
  · exact hs r hbefore file hfile
  · exact hs r hbefore file (List.mem_of_mem_filter hfile)
  · exact hs r hbefore file hfile
  · rcases List.mem_append.mp hfile with hfile | hfile
    · exact hs r hbefore file hfile
    · have hne : r' ≠ r := by
        rintro rfl
        exact hr (Function.update_self ..)
      obtain rfl : r' = r.other := Run.eq_other hne
      rw [path_of_mem_newFiles hfile]
      exact hnames r

/-- **Where a run lists the file of the other**, the glob of the partition finds its own files, and
the runs do not overlap. -/
theorem serial_of_not_overlooked {lake : SilverLake} {s : Race} {actions : List Action}
    (hpartition : ∀ r, (m r).partition = p)
    (hnames : ∀ r, (m r.other).outPath outputDir ≠ (m r).outPath outputDir)
    (hfresh : Fresh outputDir m (start lake))
    (h : Machine.run (step outputDir p m rows) (start lake) actions = some s)
    (hlisted : ¬ Machine.Along (step outputDir p m rows) (fun _ a ↦ Overlooks outputDir m a)
      (start lake) actions) :
    Glob.matchPath (partitionDir outputDir p) (partitionDir outputDir p) = true ∧
      Serial actions := by
  obtain ⟨before, a, after, u, v, rfl, hu, hlists, ha, hv⟩ := Machine.exists_of_not_along h hlisted
  simp only [Overlooks, not_forall, not_not] at hlists
  obtain ⟨r, stale, rfl, hmem⟩ := hlists
  obtain ⟨r', listed, heq, hstarted, hperm, rfl⟩ | ⟨r', path, todo, heq, -⟩ |
    ⟨r', path, todo, heq, -⟩ | ⟨r', heq, -⟩ := step_cases ha
  all_goals cases heq
  obtain ⟨hpath, hfinds⟩ := List.mem_filter.mp (hperm.mem_iff.mp hmem)
  obtain ⟨file, hfile, hfilepath⟩ := List.mem_map.mp hpath
  refine ⟨(finds_own (hpartition r.other)).symm.trans hfinds, r.other, before,
    .list r stale :: after, rfl, fun b hb ↦ ?_, fun b hb ↦ ?_⟩
  · exact Run.eq_other (run_ne_of_started hu hstarted b hb)
  · -- the other run has written its file, so it has completed
    have hdone : u.progress r.other = .completed := by
      by_contra hnot
      exact Machine.run_induction (fresh_step hnames) hfresh hu r.other hnot file hfile hfilepath
    rcases List.mem_cons.mp hb with rfl | hb
    · exact Run.eq_other r.other_ne.symm
    · refine Run.eq_other (run_ne_of_ended hv ?_ b hb)
      exact congrArg Progress.ended ((Function.update_of_ne r.other_ne _ _).trans hdone)

/-! ## Runs without rows -/

variable (outputDir p) in
/-- A run without rows leaves no file that it listed, and adds none. -/
def Cleared (lake : SilverLake) (s : Race) : Prop :=
  s.lake.Sublist lake ∧
    ∀ r, (∀ stale, s.progress r = .clearing stale →
      ∀ file ∈ s.lake, finds outputDir p file.path = true → file.path ∈ stale) ∧
      (s.progress r = .completed → ∀ file ∈ s.lake, finds outputDir p file.path = false)

theorem cleared_step (hrows : ∀ r, rows r = []) (lake : SilverLake) (s : Race) (a : Action)
    (s' : Race) (hs : Cleared outputDir p lake s) (h : step outputDir p m rows s a = some s') :
    Cleared outputDir p lake s' := by
  have hlake : s'.lake ⊆ s.lake ∧ s'.lake.Sublist lake := by
    obtain ⟨r, stale, rfl, -, -, rfl⟩ | ⟨r, path, todo, rfl, -, -, rfl⟩ |
      ⟨r, path, todo, rfl, -, -, rfl⟩ | ⟨r, rfl, -, rfl⟩ := step_cases h
    · exact ⟨List.Subset.refl _, hs.1⟩
    · exact ⟨List.filter_subset_self _, List.filter_sublist.trans hs.1⟩
    · exact ⟨List.Subset.refl _, hs.1⟩
    · simp only [newFiles, hrows, if_true, List.append_nil]
      exact ⟨List.Subset.refl _, hs.1⟩
  refine ⟨hlake.2, fun r ↦ ?_⟩
  by_cases hr : r = a.run
  · obtain ⟨r', stale, rfl, -, hstale, rfl⟩ | ⟨r', path, todo, rfl, hclearing, -, rfl⟩ |
      ⟨r', path, todo, rfl, -, -, rfl⟩ | ⟨r', rfl, hclearing, rfl⟩ := step_cases h
    all_goals
      obtain rfl : r = r' := hr
      simp only [Function.update_self, Progress.clearing.injEq, reduceCtorEq, forall_eq',
        false_imp_iff, implies_true, and_true, true_and, forall_const]
    · intro file hfile hfinds
      exact hstale.mem_iff.mpr (List.mem_filter.mpr ⟨List.mem_map_of_mem hfile, hfinds⟩)
    · intro file hfile hfinds
      obtain ⟨hmem, hne⟩ := List.mem_filter.mp hfile
      exact (List.mem_cons.mp ((hs.2 r).1 _ hclearing file hmem hfinds)).resolve_left
        (of_decide_eq_true hne)
    · intro file hfile
      rw [← Bool.not_eq_true]
      exact fun hfinds ↦
        absurd ((hs.2 r).1 _ hclearing file (hlake.1 hfile) hfinds) List.not_mem_nil
  · rw [progress_step_of_ne h hr]
    exact ⟨fun stale hstale file hfile ↦ (hs.2 r).1 stale hstale file (hlake.1 hfile),
      fun hdone file hfile ↦ (hs.2 r).2 hdone file (hlake.1 hfile)⟩

variable (outputDir p) in
/-- What the glob does not find stays. -/
def Spared (lake : SilverLake) (s : Race) : Prop :=
  (∀ r stale, s.progress r = .clearing stale → ∀ path ∈ stale, finds outputDir p path = true) ∧
    ∀ file ∈ lake, finds outputDir p file.path = false → file ∈ s.lake

theorem spared_step (lake : SilverLake) (s : Race) (a : Action) (s' : Race)
    (hs : Spared outputDir p lake s) (h : step outputDir p m rows s a = some s') :
    Spared outputDir p lake s' := by
  constructor
  · intro r stale hstale
    by_cases hr : r = a.run
    · obtain ⟨r', listed, rfl, -, hlisted, rfl⟩ | ⟨r', path, todo, rfl, hclearing, -, rfl⟩ |
        ⟨r', path, todo, rfl, -, -, rfl⟩ | ⟨r', rfl, -, rfl⟩ := step_cases h
      all_goals
        obtain rfl : r = r' := hr
        simp only [Function.update_self, Progress.clearing.injEq, reduceCtorEq] at hstale
      · intro path hpath
        exact (List.mem_filter.mp (hlisted.mem_iff.mp (hstale ▸ hpath))).2
      · intro path hpath
        exact hs.1 r _ hclearing path (List.mem_cons_of_mem _ (hstale ▸ hpath))
    · rw [progress_step_of_ne h hr] at hstale
      exact hs.1 r stale hstale
  · intro file hfile hfinds
    have hmem := hs.2 file hfile hfinds
    obtain ⟨r, stale, rfl, -, -, rfl⟩ | ⟨r, path, todo, rfl, hclearing, -, rfl⟩ |
      ⟨r, path, todo, rfl, -, -, rfl⟩ | ⟨r, rfl, -, rfl⟩ := step_cases h
    · exact hmem
    · refine List.mem_filter.mpr ⟨hmem, decide_eq_true fun heq ↦ ?_⟩
      have := hs.1 r _ hclearing path List.mem_cons_self
      rw [← heq, hfinds] at this
      cases this
    · exact hmem
    · exact List.mem_append_left _ hmem

/-! ## What both runs leave -/

/-- Two rebuilds of the same lines have as many rows. -/
theorem length_eq_of_rebuilt {lines : List Str} {xs ys : List SilverRow} (hx : Rebuilt lines xs)
    (hy : Rebuilt lines ys) : xs.length = ys.length := by
  obtain ⟨ordered, hperm, hrows⟩ := hx.same hy fun _ ↦ Iff.rfl
  rw [hrows.length_eq, hperm.length_eq]

/-- There are no rows exactly where no line normalizes to a tick. -/
theorem rebuilt_nil_iff {lines : List Str} {xs : List SilverRow} (h : Rebuilt lines xs) :
    xs = [] ↔ ∀ line ∈ lines, lineContent line = none := by
  obtain ⟨distinct, -, hmem, hrows⟩ := h.rowsOf
  rw [← List.length_eq_zero_iff, ← hrows.length_eq, List.length_eq_zero_iff,
    List.eq_nil_iff_forall_not_mem]
  simp only [hmem, not_and, Bool.not_eq_true, Option.isSome_eq_false_iff, Option.isNone_iff_eq_none]

/-- The rows of two files of a lake. -/
theorem length_rows_le {files : SilverLake} {x y : SilverFile} (hx : x ∈ files) (hy : y ∈ files)
    (hne : x ≠ y) : x.rows.length + y.rows.length ≤ files.rows.length := by
  obtain ⟨before, after, rfl⟩ := List.append_of_mem hx
  have hy' : y ∈ before ++ after := by
    rcases List.mem_append.mp hy with hy | hy
    · exact List.mem_append_left _ hy
    · exact List.mem_append_right _ ((List.mem_cons.mp hy).resolve_left (Ne.symm hne))
  have hle : y.rows.length ≤ (SilverLake.rows (before ++ after)).length := by
    rw [SilverLake.rows, List.length_flatMap]
    exact List.single_le_sum (by simp) _ (List.mem_map_of_mem hy')
  simp only [SilverLake.rows, List.length_flatMap, List.map_append, List.map_cons, List.sum_append,
    List.sum_cons] at hle ⊢
  omega

/-- Where neither run lists the file of the other, each row is there twice. -/
theorem length_rows_of_overlooked {lake : SilverLake} {s : Race} {actions : List Action}
    {lines : List Str} (hpartition : ∀ r, (m r).partition = p)
    (hnames : ∀ r, (m r.other).outPath outputDir ≠ (m r).outPath outputDir)
    (hrebuilt : ∀ r, Rebuilt lines (rows r))
    (h : Machine.run (step outputDir p m rows) (start lake) actions = some s)
    (hdone : ∀ r, s.progress r = .completed)
    (hlisted : Machine.Along (step outputDir p m rows) (fun _ a ↦ Overlooks outputDir m a)
      (start lake) actions) :
    (rows .first).length + (rows .second).length ≤
      (SilverLake.rows (partitionFiles outputDir p s.lake)).length := by
  have hkept : Kept outputDir m rows s :=
    Machine.Along.induction kept_step
      (fun r ↦ by simp [start]) hlisted h
  by_cases hnil : rows .first = []
  · rw [length_eq_of_rebuilt (hrebuilt .second) (hrebuilt .first), hnil]
    exact Nat.zero_le _
  · have hnil' : ∀ r, rows r ≠ [] := by
      intro r hr
      rw [← List.length_eq_zero_iff, length_eq_of_rebuilt (hrebuilt r) (hrebuilt .first),
        List.length_eq_zero_iff] at hr
      exact hnil hr
    have hmem : ∀ r, (⟨(m r).outPath outputDir, rows r⟩ : SilverFile) ∈
        partitionFiles outputDir p s.lake := by
      intro r
      refine List.mem_filter.mpr ⟨(hkept r).2 (hdone r) ?_, decide_eq_true ?_⟩
      · rw [newFiles, if_neg (hnil' r)]
        exact List.mem_singleton_self _
      · rw [dropLast_outPath, hpartition]
    exact length_rows_le (hmem .first) (hmem .second)
      fun heq ↦ hnames .first (congrArg SilverFile.path heq).symm

/-- Runs whose directory, read as a pattern, does not match itself remove nothing of the
partition. -/
theorem partitionFiles_subset_of_not_self {lake : SilverLake} {s : Race} {actions : List Action}
    (hlake : Written outputDir lake)
    (hrun : Machine.run (step outputDir p m rows) (start lake) actions = some s)
    (hself : Glob.matchPath (partitionDir outputDir p) (partitionDir outputDir p) = false) :
    partitionFiles outputDir p lake ⊆ partitionFiles outputDir p s.lake := by
  intro file hfile
  have hspared := Machine.run_induction (spared_step lake)
    ⟨by simp [start], fun _ hfile _ ↦ hfile⟩ hrun
  have hfinds := finds_of_mem_partitionFiles hlake hfile
  rw [hself] at hfinds
  have hstill := hspared.2 file (List.mem_of_mem_filter hfile) hfinds
  exact List.mem_filter.mpr ⟨hstill, (List.mem_filter.mp hfile).2⟩

/-- Runs that write nothing leave no rows, where they remove what was there or nothing was. -/
theorem rows_eq_nil_of_silent {lake : SilverLake} {s : Race} {actions : List Action}
    (hlake : Written outputDir lake) (hsilent : ∀ r, rows r = [])
    (hrun : Machine.run (step outputDir p m rows) (start lake) actions = some s)
    (hdone : ∀ r, s.progress r = .completed)
    (hbefore : Glob.matchPath (partitionDir outputDir p) (partitionDir outputDir p) = true ∨
      SilverLake.rows (partitionFiles outputDir p lake) = []) :
    SilverLake.rows (partitionFiles outputDir p s.lake) = [] := by
  have hcleared : Cleared outputDir p lake s :=
    Machine.run_induction (cleared_step hsilent lake)
      ⟨List.Sublist.refl _, by simp [start]⟩ hrun
  refine List.flatMap_eq_nil_iff.mpr fun file hfile ↦ ?_
  obtain ⟨hmem, hdir⟩ := List.mem_filter.mp hfile
  have hold : file ∈ partitionFiles outputDir p lake :=
    List.mem_filter.mpr ⟨hcleared.1.subset hmem, hdir⟩
  rcases hbefore with hself | hbefore
  · have hgone := (hcleared.2 .first).2 (hdone _) file hmem
    rw [finds_of_mem_partitionFiles hlake hold, hself] at hgone
    cases hgone
  · exact List.flatMap_eq_nil_iff.mp hbefore file hold

/-- **When overlapping rebuilds do not multiply rows.**  Two runs of the transform for one
partition, over one bronze content, take their steps in any order, and both complete.  The partition
holds each row of the rebuild once exactly in these cases: its directory, read as a pattern, matches
itself, and one run takes all its steps before the other begins; or no line normalizes to a tick,
and the directory matches itself or held no rows before. -/
theorem overlap_rebuilt_iff {outputDir : List Str} {p : Partition} {m : Run → Materialization}
    {rows : Run → List SilverRow} {bucket : Bucket} {lines : List Str} {lake : SilverLake}
    {actions : List Action} {s : Race} (hpartition : ∀ r, (m r).partition = p)
    (hlines : bronzeLines bucket p = .ok lines) (hrows : ∀ r, rebuild bucket (m r) = .ok (rows r))
    (hlake : Written outputDir lake) (huuid : (m .first).uuid ≠ (m .second).uuid)
    (hfresh : ∀ r, ∀ file ∈ lake, file.path ≠ (m r).outPath outputDir)
    (hrun : Machine.run (step outputDir p m rows) (start lake) actions = some s)
    (hdone : ∀ r, s.progress r = .completed) :
    Rebuilt lines (SilverLake.rows (partitionFiles outputDir p s.lake)) ↔
      Glob.matchPath (partitionDir outputDir p) (partitionDir outputDir p) = true ∧
          Serial actions ∨
        (∀ line ∈ lines, lineContent line = none) ∧
          (Glob.matchPath (partitionDir outputDir p) (partitionDir outputDir p) = true ∨
            SilverLake.rows (partitionFiles outputDir p lake) = []) := by
  have hnames : ∀ r, (m r.other).outPath outputDir ≠ (m r).outPath outputDir := by
    intro r heq
    have huuids := (outPath_inj heq).2
    cases r with
    | first => exact huuid huuids.symm
    | second => exact huuid huuids
  have hrebuilt : ∀ r, Rebuilt lines (rows r) := by
    intro r
    obtain ⟨lines', hlines', h⟩ := rebuilt_of_rebuild (hrows r)
    rw [hpartition, hlines] at hlines'
    cases hlines'
    exact h
  have hsilent : (∀ line ∈ lines, lineContent line = none) → ∀ r, rows r = [] :=
    fun h r ↦ (rebuilt_nil_iff (hrebuilt r)).mpr h
  constructor
  · intro h
    by_cases hlisted : Machine.Along (step outputDir p m rows)
      (fun _ a ↦ Overlooks outputDir m a) (start lake) actions
    · -- as many rows as twice as many: there are none
      have hle := length_rows_of_overlooked hpartition hnames hrebuilt hrun hdone hlisted
      rw [length_eq_of_rebuilt h (hrebuilt .first),
        length_eq_of_rebuilt (hrebuilt .second) (hrebuilt .first)] at hle
      have hnone := (rebuilt_nil_iff (hrebuilt .first)).mp (List.length_eq_zero_iff.mp (by omega))
      refine .inr ⟨hnone, ?_⟩
      by_cases hself : Glob.matchPath (partitionDir outputDir p) (partitionDir outputDir p) = true
      · exact .inl hself
      · -- nothing that was there has been removed
        have hkept := partitionFiles_subset_of_not_self hlake hrun
          (Bool.eq_false_of_not_eq_true hself)
        have hempty := (rebuilt_nil_iff h).mpr hnone
        exact .inr (List.flatMap_eq_nil_iff.mpr fun file hfile ↦
          List.flatMap_eq_nil_iff.mp hempty file (hkept hfile))
    · exact .inl (serial_of_not_overlooked hpartition hnames (fun r _ ↦ hfresh r) hrun hlisted)
  · rintro (⟨hself, hserial⟩ | ⟨hnone, hbefore⟩)
    · obtain ⟨r, hfinal⟩ := lake_of_serial hrun hdone hserial
      rw [hfinal, partitionFiles_append, partitionFiles_clearPartition_self
        ((hlake.clearPartition p).append_newFiles (m r) (rows r)) hself, partitionFiles_newFiles,
        if_pos (hpartition _), List.nil_append, rows_newFiles]
      exact hrebuilt _
    · rw [rows_eq_nil_of_silent hlake (hsilent hnone) hrun hdone hbefore, ← hsilent hnone .first]
      exact hrebuilt .first

/-! ### Two runs over one trade -/

/-- The two runs for a partition, under names of their own. -/
def runsFor (p : Partition) (r : Run) : Materialization :=
  { runFor p with uuid := if r = .first then "0".toList else "1".toList }

/-- The rows of either run: those of one trade. -/
def oneTrade (_ : Run) : List SilverRow := [tradeRow "BTC-USD".toList]

theorem rebuild_runsFor (r : Run) :
    rebuild (tradesBucket [btcFirst]) (runsFor btcFirst r) = .ok (oneTrade r) := by
  cases r with
  | first => decide +kernel
  | second => decide +kernel

/-- The second run finds the file of the first. -/
theorem overlap_rebuilt_one_after_other :
    ∃ lines s, bronzeLines (tradesBucket [btcFirst]) btcFirst = .ok lines ∧
      Machine.run (step ["silver".toList] btcFirst (runsFor btcFirst) oneTrade) (start [])
        [.list .first [], .next .first,
          .list .second [(runsFor btcFirst .first).outPath ["silver".toList]],
          .next .second, .next .second] = some s ∧
      Rebuilt lines (SilverLake.rows (partitionFiles ["silver".toList] btcFirst s.lake)) := by
  obtain ⟨lines, hlines, -⟩ := rebuilt_of_rebuild (rebuild_runsFor .first)
  have hrun : ∃ s, Machine.run (step ["silver".toList] btcFirst (runsFor btcFirst) oneTrade)
      (start []) [.list .first [], .next .first,
        .list .second [(runsFor btcFirst .first).outPath ["silver".toList]],
        .next .second, .next .second] = some s ∧ ∀ r, s.progress r = .completed :=
    ⟨_, rfl, fun r ↦ by
      cases r with
      | first => rfl
      | second => rfl⟩
  obtain ⟨s, hrun, hdone⟩ := hrun
  have hpartition : ∀ r, (runsFor btcFirst r).partition = btcFirst := fun _ ↦ rfl
  have hfresh : ∀ r, ∀ file ∈ ([] : SilverLake),
      file.path ≠ (runsFor btcFirst r).outPath ["silver".toList] := fun _ _ h ↦ nomatch h
  refine ⟨lines, s, hlines, hrun, (overlap_rebuilt_iff hpartition hlines rebuild_runsFor
    (written_nil _) (by decide) hfresh hrun hdone).mpr (.inl ⟨?_, ?_⟩)⟩
  · decide +kernel
  · exact ⟨.first, [.list .first [], .next .first], _, rfl, by simp [Action.run],
      by simp [Action.run, Run.other]⟩

/-- Both runs list the stale files before either writes its own: the row is there twice. -/
theorem overlapping_rebuilds_double :
    ∃ lines s, bronzeLines (tradesBucket [btcFirst]) btcFirst = .ok lines ∧
      Machine.run (step ["silver".toList] btcFirst (runsFor btcFirst) oneTrade) (start [])
        [.list .first [], .list .second [], .next .first, .next .second] = some s ∧
      (∀ r, s.progress r = .completed) ∧
      SilverLake.rows (partitionFiles ["silver".toList] btcFirst s.lake) =
        [tradeRow "BTC-USD".toList, tradeRow "BTC-USD".toList] ∧
      ¬ Rebuilt lines (SilverLake.rows (partitionFiles ["silver".toList] btcFirst s.lake)) := by
  obtain ⟨lines, hlines, -⟩ := rebuilt_of_rebuild (rebuild_runsFor .first)
  have hrun : ∃ s, Machine.run (step ["silver".toList] btcFirst (runsFor btcFirst) oneTrade)
      (start []) [.list .first [], .list .second [], .next .first, .next .second] = some s ∧
      (∀ r, s.progress r = .completed) ∧
      s.lake = newFiles ["silver".toList] (runsFor btcFirst .first) (oneTrade .first) ++
        newFiles ["silver".toList] (runsFor btcFirst .second) (oneTrade .second) :=
    ⟨_, rfl, fun r ↦ by
      cases r with
      | first => rfl
      | second => rfl, rfl⟩
  obtain ⟨s, hrun, hdone, hlake⟩ := hrun
  have hrows : SilverLake.rows (partitionFiles ["silver".toList] btcFirst s.lake) =
      [tradeRow "BTC-USD".toList, tradeRow "BTC-USD".toList] := by
    rw [hlake]
    decide +kernel
  refine ⟨lines, s, hlines, hrun, hdone, hrows, fun hrebuilt ↦ ?_⟩
  have hnodup := hrebuilt.numbered.nodup
  rw [hrows] at hnodup
  exact absurd hnodup (by decide +kernel)

end Overlap

end PostTrade
