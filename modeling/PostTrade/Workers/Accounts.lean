import PostTrade.Lib.Dict
import PostTrade.Workers.Returns
import PostTrade.Workers.Stranding

/-!
# What a run of the pool accounts for

`run_worker_pool` starts its workers, waits for all of them and returns how many messages each has
processed.  The counts come from the workers, one by one; what they add up to is a matter of the
pool.  `shares_perm` puts the two together: what a pool delivered, wrote and acknowledged is made up
of the shares of its processes.

Without claims an acknowledgement happens once, so that pending and acknowledged entries are all
that was delivered (`settled_run`).  For a pool run that returns, the counts add up to the rows it
wrote and to the entries it acknowledged, and fall short of what it was delivered by what it leaves
pending (`run_worker_pool_accounts`).
-/

set_option autoImplicit false

namespace PostTrade

namespace Pool

open ConsumerGroup Machine

/-! ## The shares make up the whole -/

/-- A part of the history that grows by the own steps of processes only. -/
structure OwnPart {β : Type} (part : History → List β) : Prop where
  empty : part {} = []
  grows : ∀ {s s' : Pool} {a : Action}, Effect s a s' → part s.history <+: part s'.history
  own : ∀ {s s' : Pool} {a : Action}, s.step a = some s' → (∀ i, a ≠ .work i) →
    part s'.history = part s.history

theorem flatMap_range_single {β : Type} (l : List β) (j n : ℕ) :
    ((List.range n).flatMap fun i ↦ if i = j then l else []) = if j < n then l else [] := by
  induction n with
  | zero => rfl
  | succ n ih =>
    rw [List.range_succ, List.flatMap_append, ih, List.flatMap_singleton]
    rcases lt_trichotomy j n with hlt | rfl | hgt
    · rw [if_pos hlt, if_neg hlt.ne', if_pos (hlt.trans n.lt_succ_self), List.append_nil]
    · rw [if_neg (lt_irrefl j), if_pos rfl, if_pos j.lt_succ_self, List.nil_append]
    · rw [if_neg hgt.not_gt, if_neg hgt.ne, if_neg (by omega), List.append_nil]

section

variable {β : Type} {part : History → List β} {store₀ : TickStore} {s s' : Pool} {a : Action}
  {as : List Action}

/-- The shares of one step. -/
theorem flatMap_share (hpart : OwnPart part) (h : s.step a = some s') {n : ℕ}
    (hn : s'.processes.length ≤ n) :
    part s'.history = part s.history ++ (List.range n).flatMap fun i ↦ share part i s a := by
  by_cases hwork : ∃ j, a = .work j
  · obtain ⟨j, rfl⟩ := hwork
    obtain ⟨l, hl⟩ := hpart.grows (effect_of_step h)
    obtain ⟨p, hp, -⟩ := Option.bind_eq_some_iff.mp h
    have hlt : j < n := ((List.getElem?_eq_some_iff.mp hp).1.trans_le
      (length_processes_step (effect_of_step h))).trans_le hn
    have hshare : (fun i ↦ share part i s (.work j)) = fun i ↦ if i = j then l else [] := by
      funext i
      split
      · rename_i hij
        subst hij
        exact share_work h hl.symm
      · rename_i hij
        exact share_of_ne fun heq ↦ hij (Action.work.inj heq).symm
    rw [hshare, flatMap_range_single, if_pos hlt, hl]
  · have hnone : ∀ i, a ≠ .work i := fun i hi ↦ hwork ⟨i, hi⟩
    have hshare : ((List.range n).flatMap fun i ↦ share part i s a) = [] :=
      List.flatMap_eq_nil_iff.mpr fun i _ ↦ share_of_ne (hnone i)
    rw [hshare, List.append_nil]
    exact hpart.own h hnone

/-- **The shares of the processes make up a part of the history.** -/
theorem shares_perm (hpart : OwnPart part) (hrun : run step (initial store₀) as = some s) {n : ℕ}
    (hn : s.processes.length ≤ n) :
    ((List.range n).flatMap fun i ↦ trace step (share part i) (initial store₀) as).Perm
      (part s.history) := by
  refine run_prefix_induction (I := fun as s ↦ s.processes.length ≤ n →
    ((List.range n).flatMap fun i ↦ trace step (share part i) (initial store₀) as).Perm
      (part s.history)) ?_ (fun _ ↦ ?_) hrun hn
  · intro as s a s' hrun ih h hn
    have hbefore := ih ((length_processes_step (effect_of_step h)).trans hn)
    simp only [trace_concat hrun h]
    rw [flatMap_share hpart h hn]
    exact (List.flatMap_append_perm _ _ _).symm.trans (hbefore.append_right _)
  · have hnil : ((List.range n).flatMap fun i ↦ trace step (share part i) (initial store₀) [])
        = [] := List.flatMap_eq_nil_iff.mpr fun i _ ↦ rfl
    rw [hnil, initial, hpart.empty]

end

/-- Only the own steps of processes deliver, write and acknowledge. -/
theorem history_of_not_work {s s' : Pool} {a : Action} (h : s.step a = some s')
    (hnone : ∀ i, a ≠ .work i) :
    s'.history.delivered = s.history.delivered ∧ s'.history.written = s.history.written ∧
      s'.history.acked = s.history.acked := by
  cases effect_of_step h with
  | read i => exact absurd rfl (hnone i)
  | write i => exact absurd rfl (hnone i)
  | ack i => exact absurd rfl (hnone i)
  | _ => exact ⟨rfl, rfl, rfl⟩

theorem ownPart_delivered : OwnPart History.delivered where
  empty := rfl
  grows he := (history_step he).1
  own h hnone := (history_of_not_work h hnone).1

theorem ownPart_written : OwnPart History.written where
  empty := rfl
  grows he := (history_step he).2.1
  own h hnone := (history_of_not_work h hnone).2.1

theorem ownPart_acked : OwnPart History.acked where
  empty := rfl
  grows he := (history_step he).2.2
  own h hnone := (history_of_not_work h hnone).2.2

/-! ## Pending and acknowledged -/

section

variable {store₀ : TickStore} {s s' : Pool} {a : Action} {as : List Action}

/-- Where nobody shares an entry, what a process acknowledges was not acknowledged before. -/
theorem nodup_acked_step (ht : Tidy store₀ s) (h : s.step a = some s')
    (hnodup : s.history.acked.Nodup) : s'.history.acked.Nodup := by
  cases effect_of_step h with
  | ack i p batch hp hphase =>
    have hbatch : inHand p = batch.map ConsumedMessage.messageId := by rw [inHand, hphase]; rfl
    have hlone := fun k hk ↦ (ht.exclusive k).lone_holder (List.mem_of_getElem? hp) (hbatch ▸ hk)
    refine List.nodup_append.mpr ⟨hnodup, ?_, ?_⟩
    · refine List.nodup_iff_count_le_one.mpr fun k ↦ ?_
      by_cases hk : k ∈ batch.map ConsumedMessage.messageId
      · rw [← hbatch, (hlone k hk).2]
      · rw [List.count_eq_zero.mpr hk]
        exact Nat.zero_le _
    · rintro k hk _ hbatch rfl
      have hone := (hlone k hbatch).1
      exact (ht.sound.acked k hk).2 ((ht.exclusive k).pending (by omega))
  | _ => exact hnodup

/-- **Without claims, what was delivered is pending or acknowledged, once.** -/
theorem settled_run (hrun : run step (initial store₀) as = some s)
    (hclaim : ∀ a ∈ as, a.isClaim = false) :
    (s.stream.pelIds ++ s.history.acked).Perm (List.range s.stream.cursor) := by
  have hkept : Tidy store₀ s ∧ s.history.acked.Nodup :=
    Along.induction (I := fun s ↦ Tidy store₀ s ∧ s.history.acked.Nodup)
      (P := fun _ a ↦ a.isClaim = false)
      (fun _ _ _ hI hP h ↦ ⟨tidy_step hI.1 h hP, nodup_acked_step hI.1 h hI.2⟩)
      ⟨tidy_initial, List.nodup_nil⟩ (Along.of_forall hclaim) hrun
  obtain ⟨ht, hnodup⟩ := hkept
  have hall : (s.stream.pelIds ++ s.history.acked).Nodup := by
    refine List.nodup_append.mpr ⟨s.stream.pelIds_nodup, hnodup, ?_⟩
    rintro k hk _ hack rfl
    exact (ht.sound.acked k hack).2 hk
  refine (List.perm_ext_iff_of_nodup hall List.nodup_range).mpr fun k ↦ ?_
  rw [List.mem_append, List.mem_range]
  constructor
  · rintro (hk | hk)
    · exact GroupStream.lt_cursor_of_mem_pelIds hk
    · obtain ⟨w, hw, rfl⟩ := List.mem_map.mp (ht.sound.acked k hk).1
      exact ht.sound.handed_lt (ht.sound.written w hw)
  · exact ht.sound.pending k

theorem length_settled (hrun : run step (initial store₀) as = some s)
    (hclaim : ∀ a ∈ as, a.isClaim = false) :
    StreamConsumer.pendingCount s.stream + s.history.acked.length = s.stream.cursor := by
  have := (settled_run hrun hclaim).length_eq
  rwa [List.length_append, List.length_range, GroupStream.pelIds, List.length_map] at this

end

/-! ## The share of a pool run -/

section

variable {β : Type} {part : History → List β} {store₀ : TickStore} {s₁ s₂ : Pool}
  {first as : List Action} {i : ℕ}

/-- A process that has ended has no further share. -/
theorem trace_share_of_ended (hfirst : run step (initial store₀) first = some s₁)
    (hrun : run step s₁ as = some s₂) {p : Process} (hp : s₁.processes[i]? = some p)
    (hended : p.phase.Ended) :
    trace step (share part i) (initial store₀) (first ++ as)
      = trace step (share part i) (initial store₀) first := by
  refine run_prefix_induction (I := fun as _ ↦
    trace step (share part i) (initial store₀) (first ++ as)
      = trace step (share part i) (initial store₀) first) (fun as s a s' hrun ih h ↦ ?_)
      (by rw [List.append_nil]) hrun
  have hne : a ≠ .work i := by
    rintro rfl
    obtain ⟨q, hq, hwork⟩ := Option.bind_eq_some_iff.mp h
    cases hq.symm.trans (ended_run hrun hp hended)
    exact work_ended hended hwork
  rw [← List.append_assoc, trace_concat (run_append_eq_some.mpr ⟨s₁, hfirst, hrun⟩) h, ih,
    share_of_ne hne, List.append_nil]

/-- What the later part of a run adds, when the earlier one has ended, are the shares of the
processes started in it. -/
theorem added_perm (hpart : OwnPart part) (hfirst : run step (initial store₀) first = some s₁)
    (hended : ∀ p ∈ s₁.processes, p.phase.Ended) (hrun : run step s₁ as = some s₂) {size : ℕ}
    (hsize : s₂.processes.length = s₁.processes.length + size) :
    ∃ added, part s₂.history = part s₁.history ++ added ∧
      ((List.range size).flatMap fun i ↦
        trace step (share part (s₁.processes.length + i)) (initial store₀) (first ++ as)).Perm
          added := by
  obtain ⟨added, hadded⟩ : part s₁.history <+: part s₂.history :=
    run_induction (I := fun s ↦ part s₁.history <+: part s.history)
      (fun _ _ _ hI h ↦ hI.trans (hpart.grows (effect_of_step h))) List.prefix_rfl hrun
  refine ⟨added, hadded.symm, ?_⟩
  have hold : ((List.range s₁.processes.length).flatMap fun i ↦
      trace step (share part i) (initial store₀) (first ++ as))
        = (List.range s₁.processes.length).flatMap fun i ↦
          trace step (share part i) (initial store₀) first := by
    refine List.flatMap_congr fun i hi ↦ ?_
    have hp := List.getElem?_eq_getElem (List.mem_range.mp hi)
    exact trace_share_of_ended hfirst hrun hp (hended _ (List.mem_of_getElem? hp))
  have hbefore := shares_perm hpart hfirst le_rfl
  have hafter := shares_perm hpart (run_append_eq_some.mpr ⟨s₁, hfirst, hrun⟩) hsize.le
  rw [List.range_add, List.flatMap_append, hold, List.flatMap_map, ← hadded] at hafter
  exact (List.perm_append_left_iff _).mp ((hbefore.symm.append_right _).trans hafter)

end

/-! ## The processes of a pool run -/

/-- The name `run_worker_pool` gives to worker `i`. -/
def workerName (i : ℕ) : Str := "worker-".toList ++ (toString i).toList

theorem workerName_injective : Function.Injective workerName := by
  intro i j h
  have hchars := List.append_cancel_left h
  exact Nat.repr_injective (String.toList_inj.mp hchars)

/-- The processes `run_worker_pool` starts. -/
def startedWorkers (size : ℕ) (args : RunWorkerArgs) : List Process :=
  (List.range size).map fun i ↦ { consumerName := workerName i, role := .worker args }

theorem run_spawn (s : Pool) (args : RunWorkerArgs) (names : List Str) :
    run step s (names.map fun name ↦ .spawn name (.worker args)) =
      some { s with
        processes := s.processes ++ names.map fun name ↦
          { consumerName := name, role := .worker args } } := by
  induction names generalizing s with
  | nil => simp
  | cons name rest ih =>
    rw [List.map_cons, run_cons_eq_some]
    refine ⟨_, rfl, ?_⟩
    rw [ih, List.append_assoc]
    rfl

theorem run_runWorkerPool (s : Pool) (size : ℕ) (args : RunWorkerArgs) :
    run step s (runWorkerPool size args)
      = some { s with processes := s.processes ++ startedWorkers size args } := by
  have hspawn := run_spawn s args ((List.range size).map workerName)
  rw [List.map_map, List.map_map] at hspawn
  exact hspawn

/-- The name and the role of a process. -/
def identity (p : Process) : Str × Role := (p.consumerName, p.role)

/-- No process is started by the action. -/
def StartsNone : Action → Prop
  | .spawn _ _ => False
  | _ => True

instance : DecidablePred StartsNone
  | .spawn _ _ => inferInstanceAs (Decidable False)
  | .publish _ | .work _ | .claim _ _ _ | .signal _ | .crash _ | .wait _ =>
    inferInstanceAs (Decidable True)

theorem map_identity_set {l : List Process} {i : ℕ} {p p' : Process} (hp : l[i]? = some p)
    (hsame : identity p' = identity p) :
    (l.set i p').map identity = l.map identity := by
  refine List.ext_getElem? fun j ↦ ?_
  rw [List.getElem?_map, List.getElem?_map]
  rcases eq_or_ne i j with rfl | hne
  · rw [List.getElem?_set_self (List.getElem?_eq_some_iff.mp hp).1, hp, Option.map_some,
      Option.map_some, hsame]
  · rw [List.getElem?_set_ne hne]

/-- Processes keep their names and roles. -/
theorem identity_step {s s' : Pool} {a : Action} (he : Effect s a s') (ha : StartsNone a) :
    s'.processes.map identity = s.processes.map identity := by
  cases he with
  | spawn => exact absurd ha id
  | publish => rfl
  | wait => rfl
  | quiet a i p p' stream hp _ hname hrole =>
    exact map_identity_set hp (Prod.ext hname hrole)
  | crash i p hp => exact map_identity_set hp rfl
  | read i p p' args stream messages hp _ _ _ _ hname hrole =>
    exact map_identity_set hp (Prod.ext hname hrole)
  | claim i p p' minIdleMs count stream messages hp _ _ hname hrole =>
    exact map_identity_set hp (Prod.ext hname hrole)
  | write i p batch hp => exact map_identity_set hp rfl
  | ack i p batch hp => exact map_identity_set hp rfl

section

variable {s₁ s₂ : Pool} {size : ℕ} {args : RunWorkerArgs} {rest : List Action}

/-- After a pool run there are the processes from before and the workers it started. -/
theorem identity_of_poolRun (hrun : run step s₁ (runWorkerPool size args ++ rest) = some s₂)
    (hstarts : ∀ a ∈ rest, StartsNone a) :
    s₂.processes.map identity
      = (s₁.processes ++ startedWorkers size args).map identity := by
  obtain ⟨u, hu, hrest⟩ := run_append_eq_some.mp hrun
  rw [run_runWorkerPool] at hu
  cases hu
  exact Along.induction (I := fun s ↦ s.processes.map identity
      = (s₁.processes ++ startedWorkers size args).map identity)
    (P := fun _ a ↦ StartsNone a)
    (fun _ _ _ hI hP h ↦ (identity_step (effect_of_step h) hP).trans hI) rfl
    (Along.of_forall hstarts) hrest

theorem length_of_poolRun (hrun : run step s₁ (runWorkerPool size args ++ rest) = some s₂)
    (hstarts : ∀ a ∈ rest, StartsNone a) :
    s₂.processes.length = s₁.processes.length + size := by
  have hlength := congrArg List.length (identity_of_poolRun hrun hstarts)
  simpa [startedWorkers] using hlength

/-- Worker `i` of a pool run. -/
theorem exists_worker (hrun : run step s₁ (runWorkerPool size args ++ rest) = some s₂)
    (hstarts : ∀ a ∈ rest, StartsNone a) {i : ℕ} (hi : i < size) :
    ∃ p, s₂.processes[s₁.processes.length + i]? = some p ∧ p.consumerName = workerName i ∧
      p.role = .worker args := by
  have hlt : s₁.processes.length + i < s₂.processes.length := by
    rw [length_of_poolRun hrun hstarts]
    omega
  refine ⟨s₂.processes[s₁.processes.length + i], List.getElem?_eq_getElem hlt, ?_⟩
  have hidentity := congrArg (·[s₁.processes.length + i]?) (identity_of_poolRun hrun hstarts)
  simp only [List.map_append, List.getElem?_map, List.getElem?_eq_getElem hlt, Option.map_some]
    at hidentity
  rw [List.getElem?_append_right (by simp), List.length_map, Nat.add_sub_cancel_left,
    startedWorkers, List.map_map, List.getElem?_map, List.getElem?_range hi, Option.map_some,
    Option.some_inj] at hidentity
  exact Prod.ext_iff.mp hidentity

end

/-! ## What `run_worker_pool` returns -/

/-- `future.result()`: what a worker that has returned counted.  It raises what a worker raised, and
where one was killed the executor is broken. -/
def futureResult (p : Process) : Option ℕ :=
  if p.phase = .stopped then some p.processed else none

/-- The loop over the futures of a pool run, in the order in which they complete.  The workers of
the pool are the processes from the given one on. -/
def collectResults (s : Pool) (start : ℕ) :
    List ℕ → OrderedDict Str ℕ → Option (OrderedDict Str ℕ)
  | [], results => some results
  | i :: rest, results =>
    s.processes[start + i]?.bind fun p ↦
      (futureResult p).bind fun n ↦ s.collectResults start rest (results.set (workerName i) n)

/-- What the loop has collected in the end. -/
theorem collectResults_eq_some {s : Pool} {start : ℕ} {order : List ℕ}
    {results final : OrderedDict Str ℕ} (h : s.collectResults start order results = some final)
    (hnodup : order.Nodup) (hnew : ∀ i ∈ order, workerName i ∉ results.keys) :
    final.keys = results.keys ++ order.map workerName ∧
      (∀ name ∈ results.keys, final.get? name = results.get? name) ∧
      ∀ i ∈ order, ∃ p, s.processes[start + i]? = some p ∧ p.phase = .stopped ∧
        final.get? (workerName i) = some p.processed := by
  induction order generalizing results with
  | nil =>
    cases h
    simp
  | cons i rest ih =>
    obtain ⟨p, hp, h⟩ := Option.bind_eq_some_iff.mp h
    obtain ⟨n, hn, h⟩ := Option.bind_eq_some_iff.mp h
    obtain ⟨hstopped, rfl⟩ : p.phase = .stopped ∧ p.processed = n := by
      simpa [futureResult, and_comm] using hn
    obtain ⟨hi, hrest⟩ := List.nodup_cons.mp hnodup
    have hnotin : workerName i ∉ results.keys := hnew i List.mem_cons_self
    have hkeys : (results.set (workerName i) p.processed).keys
        = results.keys ++ [workerName i] := by
      rw [OrderedDict.set, dif_neg hnotin, OrderedDict.keys, OrderedDict.keys, List.map_append]
      rfl
    obtain ⟨hfinal, hkept, hall⟩ := ih h hrest fun j hj ↦ by
      rw [hkeys, List.mem_append, List.mem_singleton, not_or]
      refine ⟨hnew j (List.mem_cons_of_mem _ hj), fun heq ↦ hi ?_⟩
      have hji : j = i := workerName_injective heq
      exact hji ▸ hj
    refine ⟨?_, fun name hname ↦ ?_, fun j hj ↦ ?_⟩
    · rw [hfinal, hkeys, List.append_assoc]
      rfl
    · have hne : name ≠ workerName i := by
        rintro rfl
        exact hnotin hname
      rw [hkept name (by rw [hkeys]; exact List.mem_append_left _ hname), OrderedDict.get?_set,
        if_neg hne]
    · rcases List.mem_cons.mp hj with rfl | hj
      · refine ⟨p, hp, hstopped, ?_⟩
        rw [hkept _ (by rw [hkeys]; simp), OrderedDict.get?_set, if_pos rfl]
      · exact hall j hj

section

variable {store₀ : TickStore} {s : Pool} {as : List Action} {i : ℕ} {args : RunWorkerArgs}
  {p : Process}

/-- A worker writes under its own name. -/
theorem wrote_named (hrun : run step (initial store₀) as = some s)
    (hp : s.processes[i]? = some p) (hrole : p.role = .worker args) :
    ∀ h ∈ wrote (initial store₀) i as, h.2 = p.consumerName := by
  refine worker_induction (I := fun _ p _ wrote _ ↦ ∀ h ∈ wrote, h.2 = p.consumerName)
    (fun as name h hh ↦ absurd hh List.not_mem_nil) ?_ hrun hp hrole
  intro as s a p p' received wrote acknowledged r w k _ _ _ hnamed hm h hh
  cases hm with
  | write batch hphase =>
    rcases List.mem_append.mp hh with hh | hh
    · exact hnamed h hh
    · obtain ⟨m, -, rfl⟩ := List.mem_map.mp hh
      rfl
  | _ =>
    rw [List.append_nil] at hh
    exact hnamed h hh

end

section

variable {store₀ : TickStore} {s₁ s₂ : Pool} {size : ℕ} {args : RunWorkerArgs}
  {first rest : List Action} {order : List ℕ} {results : OrderedDict Str ℕ}

/-- What worker `i` of a pool run that returned has done, in a run of the pool from the start. -/
structure Returned (store₀ : TickStore) (i : ℕ) (args : RunWorkerArgs) (name : Str)
    (as : List Action) (result : Option ℕ) : Prop where
  counted : result = some (wrote (initial store₀) i as).length
  acked : ids (wrote (initial store₀) i as) = acknowledged (initial store₀) i as
  complete : args.maxMessages = none →
    received (initial store₀) i as = wrote (initial store₀) i as
  named : ∀ h ∈ wrote (initial store₀) i as, h.2 = name

theorem returned_of_collect (hfirst : run step (initial store₀) first = some s₁)
    (hrun : run step s₁ (runWorkerPool size args ++ rest) = some s₂)
    (hstarts : ∀ a ∈ rest, StartsNone a) (horder : order.Perm (List.range size))
    (hresults : s₂.collectResults s₁.processes.length order .empty = some results) {i : ℕ}
    (hi : i < size) :
    Returned store₀ (s₁.processes.length + i) args (workerName i)
      (first ++ (runWorkerPool size args ++ rest)) (results.get? (workerName i)) := by
  have hall := run_append_eq_some.mpr ⟨s₁, hfirst, hrun⟩
  obtain ⟨p, hp, hname, hrole⟩ := exists_worker hrun hstarts hi
  obtain ⟨-, -, hcollected⟩ := collectResults_eq_some hresults
    (horder.nodup_iff.mpr List.nodup_range) fun i _ ↦ List.not_mem_nil
  obtain ⟨q, hq, hstopped, hresult⟩ := hcollected i (horder.mem_iff.mpr (List.mem_range.mpr hi))
  cases hp.symm.trans hq
  have hledger := ledger_of_run hall hp hrole (by rw [hstopped]; simp)
  refine ⟨?_, ?_, fun hnone ↦ ?_, hname ▸ wrote_named hall hp hrole⟩
  · rw [hresult, hledger.counted, hstopped]
    rfl
  · simpa [hstopped, Phase.toAck] using hledger.acked
  · simpa [hstopped, Phase.toWrite] using hledger.complete hnone

/-- The counts of a result in the order of its keys. -/
theorem sum_results {counts : ℕ → ℕ} (hkeys : results.keys = order.map workerName)
    (horder : order.Perm (List.range size))
    (hcounts : ∀ i < size, results.get? (workerName i) = some (counts i)) :
    (results.items.map Prod.snd).sum = ((List.range size).map counts).sum := by
  rw [results.map_snd_items 0, hkeys, List.map_map, ← (horder.map counts).sum_eq]
  refine congrArg _ (List.map_congr_left fun i hi ↦ ?_)
  rw [Function.comp_apply, hcounts i (List.mem_range.mp (horder.mem_iff.mp hi)), Option.getD_some]

/-- Where every worker writes under its own name, the name tells its share. -/
theorem filter_named {share : ℕ → List Handled} {added : List Handled}
    (hadded : ((List.range size).flatMap share).Perm added)
    (hnamed : ∀ i < size, ∀ h ∈ share i, h.2 = workerName i) {i : ℕ} (hi : i < size) :
    (added.filter fun h ↦ h.2 = workerName i).Perm (share i) := by
  refine (hadded.symm.filter _).trans (List.Perm.of_eq ?_)
  rw [List.filter_flatMap]
  have hsingle : ((List.range size).flatMap fun j ↦ (share j).filter fun h ↦ h.2 = workerName i)
      = (List.range size).flatMap fun j ↦ if j = i then share i else [] := by
    refine List.flatMap_congr fun j hj ↦ ?_
    split
    · rename_i hji
      subst hji
      exact List.filter_eq_self.mpr fun h hh ↦ decide_eq_true (hnamed j hi h hh)
    · rename_i hji
      refine List.filter_eq_nil_iff.mpr fun h hh hname ↦ hji ?_
      rw [hnamed j (List.mem_range.mp hj) h hh, decide_eq_true_eq] at hname
      exact workerName_injective hname
  rw [hsingle, flatMap_range_single, if_pos hi]

end

/-- **What the counts of a pool run add up to.**  A run of `run_worker_pool` from where earlier
runs have ended, under any schedule, with publishes and signals in between: if it returns, its
result has one entry for each worker, under a name of its own, and the count is that of the rows
the run wrote under this name.  The counts add up to the rows it wrote and to the entries it
acknowledged, none of which was acknowledged before.  What it was delivered beyond that it leaves
pending, and without a limit it leaves nothing more pending than it found. -/
theorem run_worker_pool_accounts (store₀ : TickStore) (s₁ s₂ : Pool) (first rest : List Action)
    (hfirst : run step (initial store₀) first = some s₁)
    (hended : ∀ p ∈ s₁.processes, p.phase.Ended) (size : ℕ) (args : RunWorkerArgs)
    (hrun : run step s₁ (runWorkerPool size args ++ rest) = some s₂)
    (hclaim : ∀ a ∈ first ++ rest, a.isClaim = false) (hstarts : ∀ a ∈ rest, StartsNone a)
    (order : List ℕ) (horder : order.Perm (List.range size)) (results : OrderedDict Str ℕ)
    (hresults : s₂.collectResults s₁.processes.length order .empty = some results) :
    results.keys = order.map workerName ∧
      ∃ acked rows, s₂.history.acked = s₁.history.acked ++ acked ∧ s₂.history.acked.Nodup ∧
        s₂.store = s₁.store ++ rows ∧ rows.length = acked.length ∧
        (results.items.map Prod.snd).sum = acked.length ∧
        (∀ i < size, results.get? (workerName i)
          = some (rows.countP fun t ↦ t.worker = some (workerName i))) ∧
        s₁.stream.cursor + acked.length + StreamConsumer.pendingCount s₂.stream
          = s₂.stream.cursor + StreamConsumer.pendingCount s₁.stream ∧
        (args.maxMessages = none →
          StreamConsumer.pendingCount s₂.stream = StreamConsumer.pendingCount s₁.stream) := by
  have hall := run_append_eq_some.mpr ⟨s₁, hfirst, hrun⟩
  have hclaims : ∀ a ∈ first ++ (runWorkerPool size args ++ rest), a.isClaim = false := by
    intro a ha
    rcases List.mem_append.mp ha with ha | ha
    · exact hclaim a (List.mem_append_left _ ha)
    · rcases List.mem_append.mp ha with ha | ha
      · obtain ⟨i, -, rfl⟩ := List.mem_map.mp ha
        rfl
      · exact hclaim a (List.mem_append_right _ ha)
  have hsize := length_of_poolRun hrun hstarts
  have hreturned := fun i hi ↦ returned_of_collect hfirst hrun hstarts horder hresults (i := i) hi
  obtain ⟨hkeys, -, -⟩ := collectResults_eq_some hresults (horder.nodup_iff.mpr List.nodup_range)
    fun i _ ↦ List.not_mem_nil
  obtain ⟨written, hwritten, hwrittenPerm⟩ := added_perm ownPart_written hfirst hended hrun hsize
  obtain ⟨acked, hacked, hackedPerm⟩ := added_perm ownPart_acked hfirst hended hrun hsize
  obtain ⟨delivered, hdelivered, hdeliveredPerm⟩ :=
    added_perm ownPart_delivered hfirst hended hrun hsize
  have hs₁ := sound_of_run hfirst
  have hs₂ := sound_of_run hall
  have hlength : acked.length = written.length := by
    rw [← hackedPerm.length_eq, ← hwrittenPerm.length_eq, List.length_flatMap, List.length_flatMap]
    refine congrArg _ (List.map_congr_left fun i hi ↦ ?_)
    have hledger := congrArg List.length (hreturned i (List.mem_range.mp hi)).acked
    rw [ids, List.length_map] at hledger
    exact hledger.symm
  have hcursor₁ := length_settled hfirst fun a ha ↦ hclaim a (List.mem_append_left _ ha)
  have hcursor₂ := length_settled hall hclaims
  rw [hacked, List.length_append] at hcursor₂
  refine ⟨hkeys, acked, written.map rowOf, hacked, ?_, ?_, ?_, ?_, fun i hi ↦ ?_, ?_,
    fun hnone ↦ ?_⟩
  · exact (List.nodup_append.mp ((settled_run hall hclaims).nodup_iff.mpr List.nodup_range)).2.1
  · rw [hs₂.store, hs₁.store, hwritten, List.map_append, List.append_assoc]
  · rw [List.length_map, hlength]
  · rw [sum_results hkeys horder fun i hi ↦ (hreturned i hi).counted, hlength,
      ← hwrittenPerm.length_eq, List.length_flatMap]
    rfl
  · have hnamed := (filter_named hwrittenPerm (fun i hi ↦ (hreturned i hi).named) hi).length_eq
    rw [(hreturned i hi).counted, List.countP_map, List.countP_eq_length_filter, wrote, ← hnamed]
    simp [Function.comp_def, rowOf, TickRow.ofTick]
  · omega
  · have hsame : delivered.length = written.length := by
      rw [← hdeliveredPerm.length_eq, ← hwrittenPerm.length_eq, List.length_flatMap,
        List.length_flatMap]
      refine congrArg _ (List.map_congr_left fun i hi ↦ congrArg List.length ?_)
      exact (hreturned i (List.mem_range.mp hi)).complete hnone
    have hdelivered₁ := congrArg List.length hs₁.delivered
    have hdelivered₂ := congrArg List.length hs₂.delivered
    rw [ids, List.length_map, List.length_range] at hdelivered₁ hdelivered₂
    rw [hdelivered, List.length_append] at hdelivered₂
    omega

/-! ### Two workers share three entries -/

/-- Three entries before the pool is started. -/
def threeEntries : List Action :=
  [.publish (btcTick 1 0), .publish (btcTick 2 0),
    .publish (btcTick 3 0)]

/-- Two workers take turns until the second one is idle, and then the first one goes on alone. -/
def takingTurns : List Action :=
  (List.replicate 6 [Action.work 0, Action.work 1]).flatten ++ List.replicate 4 (.work 0)

/-- The state this leaves. -/
def sharedPool : Pool :=
  after (threeEntries ++ (runWorkerPool 2 { maxIdleReads := some 1, readBatchSize := 1 }
    ++ takingTurns))

/-- The second worker returns first.  The two counts add up to the three entries. -/
theorem run_worker_pool_accounts_two :
    ∃ results, sharedPool.collectResults 0 [1, 0] .empty = some results ∧
      results.keys = ["worker-1".toList, "worker-0".toList] ∧
      (results.items.map Prod.snd).sum = 3 := by
  obtain ⟨results, hresults⟩ := Option.isSome_iff_exists.mp
    (show (sharedPool.collectResults 0 [1, 0] .empty).isSome by decide +kernel)
  obtain ⟨hkeys, acked, rows, hacked, -, -, -, hsum, -⟩ := run_worker_pool_accounts []
    (after threeEntries) sharedPool threeEntries takingTurns (by decide +kernel)
    (by decide +kernel) 2 { maxIdleReads := some 1, readBatchSize := 1 } (by decide +kernel)
    (by decide +kernel) (by decide +kernel) [1, 0] (by decide) results hresults
  have hlength : sharedPool.history.acked.length
      = (after threeEntries).history.acked.length + 3 := by decide +kernel
  rw [hacked, List.length_append] at hlength
  refine ⟨results, hresults, hkeys, ?_⟩
  omega

end Pool

end PostTrade
