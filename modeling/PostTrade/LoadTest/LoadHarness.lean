import PostTrade.Workers.Stranding

/-!
# The load harness

`loadtest/load_harness.py`: `run_step` publishes at a rate, samples the lag of the group all along,
gives the workers a time of grace, and calls the system caught up if the last sample is zero.

The harness is one more process beside the publishers and the workers, so it is a machine around
that of `Pool`: between any two of its own steps they take any number of theirs.  It looks at the
group only, once for each sample.  Nobody calls `claim_stale` on the stream of a load test.

The lag of a group counts what is undelivered.  A batch that a worker has read and not yet
acknowledged is in no lag, and `caught_up_iff` says that this is the one thing a sample of zero
misses where the group exists: it tells that everything was processed exactly when no worker stands
between its read and its acknowledgement, and none ended there.
-/

set_option autoImplicit false

namespace PostTrade

open ConsumerGroup Machine

/-! ## Sampling the lag -/

/-- What `XINFO GROUPS` says of a group.  Redis gives no lag where it cannot tell it. -/
structure GroupInfo where
  pending : ℕ
  lag : Option ℕ

/-- `xinfo_groups`, where Redis can tell the lag or cannot.  `none` is the error for a stream that
does not exist. -/
def xinfoGroups (stream : TickStream) (lagKnown : Bool) : Option (List GroupInfo) :=
  if stream.created = true then
    some [{
      pending := stream.xpending
      lag := if lagKnown then some (stream.entries.length - stream.cursor) else none }]
  else if stream.entries = [] then none
  else some []

/-- `_get_lag`. -/
def getLag (stream : TickStream) (lagKnown : Bool) : ℕ :=
  match xinfoGroups stream lagKnown with
  | none => 0
  | some [] => 0
  | some (g :: _) => g.lag.getD g.pending

/-! ## `run_step` -/

/-- What `run_step` returns, but for its times and rates. -/
structure StepResult where
  maxLagDuringStep : ℕ
  lagAtStepEnd : ℕ
  lagAfterGrace : ℕ
  caughtUp : Bool
  samples : List ℕ
  deriving DecidableEq

/-- Where `run_step` stands. -/
inductive StepPhase
  /-- No step was run yet. -/
  | idle
  /-- In `_produce`, while the publishers are alive. -/
  | producing
  /-- In the loop of the grace period. -/
  | grace (lagAtStepEnd : ℕ)
  /-- After that loop. -/
  | graceOver (lagAtStepEnd : ℕ)
  | returned (result : StepResult)
  deriving DecidableEq

/-- The harness, and the publishers and workers it measures. -/
structure LoadHarness where
  pool : Pool
  phase : StepPhase := .idle
  samples : List ℕ := []
  deriving DecidableEq

/-- A step of the harness, or of somebody else.  A sample comes with whether Redis can tell the
lag. -/
inductive HarnessAction
  | pool (a : Action)
  | runStep
  /-- A sample while the publishers are alive. -/
  | sample (lagKnown : Bool)
  /-- The publishers have ended, and the lag at the end of the step is taken. -/
  | produced (lagKnown : Bool)
  /-- A round of the grace period. -/
  | graceSample (lagKnown : Bool)
  /-- The grace period is over. -/
  | graceTimeout
  /-- The last sample, and the result. -/
  | finish (lagKnown : Bool)
  deriving DecidableEq

namespace LoadHarness

variable (h : LoadHarness)

/-- The machine before anything happened. -/
def initial (store : TickStore) : LoadHarness where
  pool := Pool.initial store

/-- The result with the last sample. -/
def result (lagAtStepEnd lagAfterGrace : ℕ) : StepResult where
  maxLagDuringStep := h.samples.max?.getD 0
  lagAtStepEnd := lagAtStepEnd
  lagAfterGrace := lagAfterGrace
  caughtUp := lagAfterGrace = 0
  samples := h.samples

/-- One step of the machine. -/
def step : HarnessAction → Option LoadHarness
  | .pool a =>
    if a.isClaim then none else (h.pool.step a).map fun pool ↦ { h with pool }
  | .runStep =>
    match h.phase with
    | .idle | .returned _ => some { h with phase := .producing, samples := [] }
    | _ => none
  | .sample lagKnown =>
    match h.phase with
    | .producing => some { h with samples := h.samples ++ [getLag h.pool.stream lagKnown] }
    | _ => none
  | .produced lagKnown =>
    match h.phase with
    | .producing => some { h with phase := .grace (getLag h.pool.stream lagKnown) }
    | _ => none
  | .graceSample lagKnown =>
    match h.phase with
    | .grace lagAtStepEnd =>
      let lag := getLag h.pool.stream lagKnown
      some { h with
        samples := h.samples ++ [lag]
        phase := if lag = 0 then .graceOver lagAtStepEnd else .grace lagAtStepEnd }
    | _ => none
  | .graceTimeout =>
    match h.phase with
    | .grace lagAtStepEnd => some { h with phase := .graceOver lagAtStepEnd }
    | _ => none
  | .finish lagKnown =>
    match h.phase with
    | .graceOver lagAtStepEnd =>
      some { h with
        phase := .returned (h.result lagAtStepEnd (getLag h.pool.stream lagKnown)) }
    | _ => none

end LoadHarness

/-! ## What is processed -/

namespace Pool

variable (s : Pool)

/-- Every entry published is written to the store and acknowledged; none is undelivered, and none
pending. -/
def Processed : Prop :=
  s.Drained ∧ ∀ k < s.stream.entries.length, 1 ≤ s.timesWritten k ∧ k ∈ s.history.acked

/-- No process stands between its read and its acknowledgement with messages in hand, and none has
ended there or dropped any. -/
def Settled : Prop := (∀ p ∈ s.processes, inHand p = []) ∧ ∀ k, ¬ s.Stranded k

/-- What a sample of zero has to come with for everything to be processed: the group, if anything is
published at all, and then, where nothing is undelivered, settled processes.  Where Redis cannot
tell the lag and the sample counts what is pending, it is the other way round. -/
def LagTells (lagKnown : Bool) : Prop :=
  if s.stream.created = true then
    if lagKnown = true then s.backlog = 0 → s.Settled else s.Settled → s.backlog = 0
  else s.stream.entries = []

variable {s} {store₀ : TickStore}

theorem backlog_eq_zero_iff : s.backlog = 0 ↔ s.stream.cursor = s.stream.entries.length := by
  have := s.stream.cursor_le
  rw [backlog]
  omega

/-- What is in hand is pending, and what is pending and in no hand is stranded. -/
theorem Tidy.settled_iff (ht : Tidy store₀ s) : s.Settled ↔ s.stream.pelIds = [] := by
  rw [List.eq_nil_iff_forall_not_mem]
  have hhold : ∀ k, s.holders k = 0 ↔ ∀ p ∈ s.processes, k ∉ inHand p := by
    intro k
    simp only [holders, tally_eq_zero_iff, List.count_eq_zero]
  constructor
  · rintro ⟨hhands, hstranded⟩ k hk
    refine hstranded k ⟨hk, (hhold k).mpr fun p hp ↦ ?_⟩
    rw [hhands p hp]
    exact List.not_mem_nil
  · refine fun hpel ↦ ⟨fun p hp ↦ ?_, fun k hk ↦ hpel k hk.1⟩
    refine List.eq_nil_iff_forall_not_mem.mpr fun k hk ↦ ?_
    exact hpel k ((ht.exclusive k).pending fun hzero ↦ (hhold k).mp hzero p hp hk)

theorem Tidy.processed_iff (ht : Tidy store₀ s) :
    s.Processed ↔ s.Settled ∧ s.backlog = 0 := by
  rw [ht.settled_iff, backlog_eq_zero_iff]
  refine and_iff_left_of_imp fun hdrained k hk ↦ ?_
  have hack := ht.sound.acked_of_drained hdrained hk
  exact ⟨ht.sound.one_le_timesWritten hack, hack⟩

end Pool

namespace LoadHarness

variable {store₀ : TickStore} {h h' : LoadHarness}

/-- **What a sample of zero says**: where the group exists, that nothing is undelivered, or, of
Redis that cannot tell, that nothing is pending. -/
theorem getLag_eq_zero_iff {s : Pool} (ht : s.Tidy store₀) (lagKnown : Bool) :
    getLag s.stream lagKnown = 0 ↔
      (s.stream.created = true → if lagKnown = true then s.backlog = 0 else s.Settled) := by
  rw [getLag, xinfoGroups]
  by_cases hcreated : s.stream.created = true
  · rw [if_pos hcreated, forall_prop_of_true hcreated]
    cases lagKnown with
    | true => exact .rfl
    | false =>
      simp only [ht.settled_iff, GroupStream.pelIds, List.map_eq_nil_iff]
      exact List.length_eq_zero_iff
  · rw [if_neg hcreated]
    refine iff_of_true ?_ fun h ↦ absurd h hcreated
    split
    · rfl
    · rfl
    · rename_i hgroups
      split at hgroups
      · cases hgroups
      · cases hgroups

/-- A step of the harness leaves the pool to the others. -/
theorem pool_step {a : HarnessAction} (hstep : h.step a = some h') :
    (∃ b, a = .pool b ∧ b.isClaim = false ∧ h.pool.step b = some h'.pool) ∨ h'.pool = h.pool := by
  cases a with
  | pool b =>
    rw [step] at hstep
    split at hstep
    · cases hstep
    · rename_i hclaim
      obtain ⟨pool, hpool, rfl⟩ := Option.map_eq_some_iff.mp hstep
      exact .inl ⟨b, rfl, by simpa using hclaim, hpool⟩
  | _ =>
    right
    rw [step] at hstep
    split at hstep <;> cases hstep <;> rfl

/-- What the pool of the harness keeps. -/
theorem tidy_run {as : List HarnessAction} (hrun : run step (initial store₀) as = some h) :
    h.pool.Tidy store₀ := by
  refine run_induction (I := fun h ↦ h.pool.Tidy store₀) (fun h a h' ht hstep ↦ ?_)
    Pool.tidy_initial hrun
  rcases pool_step hstep with ⟨b, -, hclaim, hpool⟩ | hsame
  · exact Pool.tidy_step ht hpool hclaim
  · rwa [hsame]

/-- The last step of `run_step`. -/
theorem finish_eq_some {lagKnown : Bool} (hstep : h.step (.finish lagKnown) = some h') :
    h'.pool = h.pool ∧ ∃ lagAtStepEnd, h.phase = .graceOver lagAtStepEnd ∧
      h'.phase = .returned (h.result lagAtStepEnd (getLag h.pool.stream lagKnown)) := by
  rw [step] at hstep
  split at hstep
  · rename_i lagAtStepEnd hphase
    cases hstep
    exact ⟨rfl, lagAtStepEnd, hphase, rfl⟩
  · cases hstep

/-- **What `caught_up` tells.**  However the harness, the publishers and the workers take their
steps, the result says that everything published is written and acknowledged exactly when the group
is there and, where nothing is undelivered, all workers are settled at the last sample. -/
theorem caught_up_iff {as : List HarnessAction} {lagKnown : Bool} {result : StepResult}
    (hrun : run step (initial store₀) as = some h)
    (hfinish : h.step (.finish lagKnown) = some h') (hresult : h'.phase = .returned result) :
    (result.caughtUp = true → h.pool.Processed) ↔ h.pool.LagTells lagKnown := by
  have ht := tidy_run hrun
  obtain ⟨-, lagAtStepEnd, -, hphase⟩ := finish_eq_some hfinish
  have hcaughtUp : result.caughtUp = true ↔ getLag h.pool.stream lagKnown = 0 := by
    obtain rfl := StepPhase.returned.inj (hphase.symm.trans hresult)
    exact decide_eq_true_iff
  rw [hcaughtUp, getLag_eq_zero_iff ht, ht.processed_iff, Pool.LagTells]
  by_cases hcreated : h.pool.stream.created = true
  · rw [if_pos hcreated, forall_prop_of_true hcreated]
    cases lagKnown with
    | true => exact imp_congr_right fun hzero ↦ and_iff_left hzero
    | false => exact imp_congr_right fun hsettled ↦ and_iff_right hsettled
  · rw [if_neg hcreated]
    obtain ⟨hcursor, hpel⟩ := h.pool.stream.fresh (by simpa using hcreated)
    rw [forall_prop_of_true fun h ↦ absurd h hcreated, ht.settled_iff, Pool.backlog, hcursor,
      GroupStream.pelIds, hpel]
    simp

/-! ### A batch in hand -/

/-- A step of the harness with one worker and one entry.  After the publisher has ended the worker
reads the entry and takes `steps` steps more; then the lag is sampled in the grace period. -/
def measuredRun (steps : ℕ) : List HarnessAction :=
  [.pool (.spawn "loadtest-worker-0".toList (.worker {})), .pool (.work 0), .runStep,
    .pool (.publish (btcTick 1 0)), .sample true, .produced true, .pool (.work 0)]
    ++ List.replicate steps (.pool (.work 0)) ++ [.graceSample true]

/-- The state this leaves. -/
def measured (steps : ℕ) : LoadHarness :=
  (run step (initial []) (measuredRun steps)).getD (initial [])

/-- The result with the last sample. -/
def measuredResult : StepResult where
  maxLagDuringStep := 1
  lagAtStepEnd := 1
  lagAfterGrace := 0
  caughtUp := true
  samples := [1, 0]

/-- The worker has written and acknowledged: caught up says so. -/
theorem caught_up_acknowledged : (measured 2).pool.Processed := by
  have hsettled : (measured 2).pool.Settled := by
    refine ⟨by decide +kernel, fun k hk ↦ ?_⟩
    have hnone : (measured 2).pool.stream.pelIds = [] := by decide +kernel
    exact absurd (hnone ▸ hk.1) List.not_mem_nil
  have hcreated : (measured 2).pool.stream.created = true := by decide +kernel
  have hrun : run step (initial []) (measuredRun 2) = some (measured 2) := by decide +kernel
  have hfinish : (measured 2).step (.finish true) =
      some { measured 2 with phase := .returned measuredResult } := by
    decide +kernel
  refine (caught_up_iff hrun hfinish rfl).mpr ?_ rfl
  rw [Pool.LagTells, if_pos hcreated, if_pos rfl]
  exact fun _ ↦ hsettled

/-- The worker has only read: caught up, and nothing is in the store. -/
theorem caught_up_in_hand :
    run step (initial []) (measuredRun 0) = some (measured 0) ∧
    (measured 0).step (.finish true) =
      some { measured 0 with phase := .returned measuredResult } ∧
    measuredResult.caughtUp = true ∧ (measured 0).pool.stream.pelIds = [0] ∧
    (measured 0).pool.store = [] ∧ ¬ (measured 0).pool.Processed := by
  have hpending : (measured 0).pool.stream.pelIds = [0] := by decide +kernel
  refine ⟨by decide +kernel, by decide +kernel, rfl, hpending, by decide +kernel, ?_⟩
  rintro ⟨⟨hnone, -⟩, -⟩
  rw [hpending] at hnone
  cases hnone

end LoadHarness

end PostTrade
