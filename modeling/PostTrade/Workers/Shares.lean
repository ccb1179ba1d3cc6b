import PostTrade.Workers.Safety

/-!
# One worker of the pool

`run_worker` followed through one process of the pool, among any others.  What the process received,
wrote and acknowledged is what its own steps added to the history of the pool (`share`), and
`WorkerMove` lists what a step of the pool can do to the process and to these three.

`worker_induction` is the induction over a run for statements about one worker and its shares.
-/

set_option autoImplicit false

namespace PostTrade

namespace Pool

open ConsumerGroup Machine

/-! ## The share of one process -/

/-- What a step adds to a part of the history, if it is the own step of process `i`. -/
def share {β : Type} (part : History → List β) (i : ℕ) (s : Pool) (a : Action) : List β :=
  if a = .work i then
    ((s.step a).map fun s' ↦ (part s'.history).drop (part s.history).length).getD []
  else []

/-- What process `i` was delivered in a run from `s`. -/
def received (s : Pool) (i : ℕ) (as : List Action) : List Handled :=
  trace step (share History.delivered i) s as

/-- What process `i` wrote. -/
def wrote (s : Pool) (i : ℕ) (as : List Action) : List Handled :=
  trace step (share History.written i) s as

/-- The ids process `i` acknowledged. -/
def acknowledged (s : Pool) (i : ℕ) (as : List Action) : List ℕ :=
  trace step (share History.acked i) s as

section Share

variable {β : Type} {part : History → List β} {s s' : Pool} {a : Action} {i : ℕ}

theorem share_of_ne (h : a ≠ .work i) : share part i s a = [] := if_neg h

theorem share_work {l : List β} (h : s.step (.work i) = some s')
    (hpart : part s'.history = part s.history ++ l) : share part i s (.work i) = l := by
  simp [share, h, hpart]

/-- The history of the pool only grows. -/
theorem history_step (he : Effect s a s') :
    s.history.delivered <+: s'.history.delivered ∧ s.history.written <+: s'.history.written ∧
      s.history.acked <+: s'.history.acked := by
  cases he with
  | read => exact ⟨List.prefix_append _ _, List.prefix_rfl, List.prefix_rfl⟩
  | write => exact ⟨List.prefix_rfl, List.prefix_append _ _, List.prefix_rfl⟩
  | ack => exact ⟨List.prefix_rfl, List.prefix_rfl, List.prefix_append _ _⟩
  | _ => exact ⟨List.prefix_rfl, List.prefix_rfl, List.prefix_rfl⟩

/-- What the steps of one process add is part of what was added. -/
theorem trace_share_sublist {store₀ : TickStore} {as : List Action}
    (hgrow : ∀ s a s', Effect s a s' → part s.history <+: part s'.history)
    (hrun : run step (initial store₀) as = some s) :
    (trace step (share part i) (initial store₀) as).Sublist (part s.history) := by
  refine run_prefix_induction (I := fun as s ↦
    (trace step (share part i) (initial store₀) as).Sublist (part s.history)) ?_
      (List.nil_sublist _) hrun
  intro as s a s' hrun hsub h
  obtain ⟨l, hl⟩ := hgrow s a s' (effect_of_step h)
  rw [trace_concat hrun h, ← hl]
  refine hsub.append ?_
  by_cases ha : a = .work i
  · subst ha
    rw [share_work h hl.symm]
  · rw [share_of_ne ha]
    exact List.nil_sublist l

end Share

/-! ## One process, step by step -/

/-- What a step of the pool can do to a worker process, with what the process receives, writes and
acknowledges in it. -/
inductive WorkerMove (s : Pool) (i : ℕ) (args : RunWorkerArgs) (p : Process) :
    Action → Process → List Handled → List Handled → List ℕ → Prop
  /-- The step is none of its business. -/
  | rest (a : Action) : WorkerMove s i args p a p [] [] []
  | signal : WorkerMove s i args p (.signal i) { p with running := false } [] [] []
  | crash : WorkerMove s i args p (.crash i) { p with phase := .crashed } [] [] []
  | create (hphase : p.phase = .starting) :
    WorkerMove s i args p (.work i) { p with phase := .looping } [] [] []
  | stop (hphase : p.phase = .looping) (hrunning : p.running = false) :
    WorkerMove s i args p (.work i) { p with phase := .stopped } [] [] []
  | fail (hphase : p.phase = .looping) (error : RedisError)
    (hread : StreamConsumer.read s.stream p.consumerName args.readBatchSize s.now
      = .error error) :
    WorkerMove s i args p (.work i) { p with phase := .raised } [] [] []
  | idle (hphase : p.phase = .looping) :
    WorkerMove s i args p (.work i)
      { p with
        idleReads := p.idleReads + 1
        phase := if limitReached args.maxIdleReads (p.idleReads + 1) then .stopped else .looping }
      [] [] []
  | read (hphase : p.phase = .looping) (hrunning : p.running = true)
    (messages : List ConsumedMessage) (hne : messages ≠ []) :
    WorkerMove s i args p (.work i)
      { p with
        idleReads := 0
        phase := .writing (limitBatch args.maxMessages p.processed messages) }
      (messages.map fun m ↦ (m, p.consumerName)) [] []
  | write (batch : List ConsumedMessage) (hphase : p.phase = .writing batch) :
    WorkerMove s i args p (.work i) { p with phase := .acking batch }
      [] (batch.map fun m ↦ (m, p.consumerName)) []
  | ack (batch : List ConsumedMessage) (hphase : p.phase = .acking batch) :
    WorkerMove s i args p (.work i)
      { p with processed := p.processed + batch.length, phase := .reporting batch }
      [] [] (batch.map ConsumedMessage.messageId)
  | reportEmpty (hphase : p.phase = .reporting []) :
    WorkerMove s i args p (.work i) { p with phase := .raised } [] [] []
  | report (batch : List ConsumedMessage) (hphase : p.phase = .reporting batch)
    (hne : batch ≠ []) :
    WorkerMove s i args p (.work i)
      { p with
        phase := .looping
        running := p.running && !limitReached args.maxMessages p.processed }
      [] [] []

section

variable {s s' : Pool} {a : Action} {i : ℕ} {args : RunWorkerArgs} {p : Process}

/-- The shares of a step read off what it adds to the history. -/
theorem WorkerMove.of_history (h : s.step (.work i) = some s') {p' : Process}
    {delivered written : List Handled} {acked : List ℕ}
    (hdelivered : s'.history.delivered = s.history.delivered ++ delivered)
    (hwritten : s'.history.written = s.history.written ++ written)
    (hacked : s'.history.acked = s.history.acked ++ acked)
    (hmove : WorkerMove s i args p (.work i) p' delivered written acked) :
    WorkerMove s i args p (.work i) p' (share History.delivered i s (.work i))
      (share History.written i s (.work i)) (share History.acked i s (.work i)) := by
  rw [share_work h hdelivered, share_work h hwritten, share_work h hacked]
  exact hmove

/-- The own step of a worker. -/
theorem workerMove_of_work (hp : s.processes[i]? = some p) (hrole : p.role = .worker args)
    (h : s.step (.work i) = some s') :
    ∃ p', s'.processes = s.processes.set i p' ∧
      WorkerMove s i args p (.work i) p' (share History.delivered i s (.work i))
        (share History.written i s (.work i)) (share History.acked i s (.work i)) := by
  have hwork : s.work i p = some s' := by simpa [step, hp] using h
  rw [work, hrole] at hwork
  split at hwork
  · rename_i hphase
    cases hwork
    exact ⟨_, rfl, .of_history h (by simp [createConsumer, setProcess])
      (by simp [createConsumer, setProcess]) (by simp [createConsumer, setProcess])
      (.create hphase)⟩
  · rename_i args' hphase hargs
    cases hargs
    rw [readMessages] at hwork
    split at hwork
    · rename_i hrunning
      cases hwork
      exact ⟨_, rfl, .of_history h (by simp [setProcess]) (by simp [setProcess])
        (by simp [setProcess]) (.stop hphase hrunning)⟩
    · rename_i hrunning
      split at hwork
      · rename_i error hread
        cases hwork
        exact ⟨_, rfl, .of_history h (by simp [setProcess]) (by simp [setProcess])
          (by simp [setProcess]) (.fail hphase error hread)⟩
      · rename_i stream messages hread
        split at hwork
        · cases hwork
          exact ⟨_, rfl, .of_history h (by simp [setProcess]) (by simp [setProcess])
            (by simp [setProcess]) (.idle hphase)⟩
        · rename_i hne
          cases hwork
          exact ⟨_, rfl, .of_history h rfl (by simp [setProcess]) (by simp [setProcess])
            (.read hphase (by simpa using hrunning) messages hne)⟩
  · rename_i batch hphase
    cases hwork
    exact ⟨_, rfl, .of_history h (by simp [writeBatch, setProcess]) rfl
      (by simp [writeBatch, setProcess]) (.write batch hphase)⟩
  · rename_i batch hphase
    cases hwork
    refine ⟨{ p with processed := p.processed + batch.length, phase := .reporting batch }, ?_,
      .of_history h (by simp [ackBatch, setProcess]) (by simp [ackBatch, setProcess]) rfl
        (.ack batch hphase)⟩
    simp [ackBatch, setProcess, hrole]
  · rename_i batch args' hphase hargs
    cases hargs
    rw [report] at hwork
    split at hwork
    · rename_i hempty
      cases hwork
      exact ⟨_, rfl, .of_history h (by simp [setProcess]) (by simp [setProcess])
        (by simp [setProcess]) (.reportEmpty (hempty ▸ hphase))⟩
    · rename_i hne
      cases hwork
      exact ⟨_, rfl, .of_history h (by simp [setProcess]) (by simp [setProcess])
        (by simp [setProcess]) (.report batch hphase hne)⟩
  · cases hwork

/-- A step of one process leaves the others alone. -/
theorem exists_set_of_work {j : ℕ} {q : Process} (h : s.work j q = some s') :
    ∃ q', s'.processes = s.processes.set j q' := by
  rw [work] at h
  split at h
  · cases h
    exact ⟨_, rfl⟩
  · cases h
    rw [readMessages]
    split
    · exact ⟨_, rfl⟩
    · split
      · exact ⟨_, rfl⟩
      · dsimp only
        split
        · exact ⟨_, rfl⟩
        · exact ⟨_, rfl⟩
  · cases h
    exact ⟨_, rfl⟩
  · cases h
    exact ⟨_, rfl⟩
  · cases h
    rw [report]
    split
    · exact ⟨_, rfl⟩
    · exact ⟨_, rfl⟩
  · cases h

/-- **What a step of the pool can do to a worker.** -/
theorem workerMove_of_step (hp : s.processes[i]? = some p) (hrole : p.role = .worker args)
    (h : s.step a = some s') :
    ∃ p', s'.processes[i]? = some p' ∧
      WorkerMove s i args p a p' (share History.delivered i s a) (share History.written i s a)
        (share History.acked i s a) := by
  have hlt : i < s.processes.length := (List.getElem?_eq_some_iff.mp hp).1
  have hrest : a ≠ .work i → s'.processes[i]? = some p → ∃ p', s'.processes[i]? = some p' ∧
      WorkerMove s i args p a p' (share History.delivered i s a) (share History.written i s a)
        (share History.acked i s a) := by
    intro ha hp'
    rw [share_of_ne ha, share_of_ne ha, share_of_ne ha]
    exact ⟨p, hp', .rest a⟩
  by_cases ha : a = .work i
  · subst ha
    obtain ⟨p', hset, hmove⟩ := workerMove_of_work hp hrole h
    exact ⟨p', by rw [hset, List.getElem?_set_self hlt], hmove⟩
  have hother : ∀ {j : ℕ} {q' : Process}, j ≠ i → (s.processes.set j q')[i]? = some p := by
    intro j q' hne
    rw [List.getElem?_set_ne hne, hp]
  cases a with
  | publish tick =>
    cases h
    exact hrest ha hp
  | wait ms =>
    cases h
    exact hrest ha hp
  | spawn consumerName role =>
    cases h
    exact hrest ha ((List.getElem?_append_left hlt).trans hp)
  | work j =>
    obtain ⟨q, hq, hwork⟩ := Option.bind_eq_some_iff.mp h
    obtain ⟨q', hset⟩ := exists_set_of_work hwork
    exact hrest ha (hset ▸ hother fun hji ↦ ha (hji ▸ rfl))
  | claim j minIdleMs count =>
    obtain ⟨q, hq, hclaim⟩ := Option.bind_eq_some_iff.mp h
    split at hclaim
    · rename_i hrecovery
      have hne : j ≠ i := by
        rintro rfl
        cases hp.symm.trans hq
        cases hrole.symm.trans hrecovery.1
      cases hclaim
      refine hrest ha ?_
      rw [claimMessages]
      split
      · exact hother hne
      · exact hother hne
    · cases hclaim
  | signal j =>
    obtain ⟨q, hq, hsignal⟩ := Option.bind_eq_some_iff.mp h
    split at hsignal
    · cases hsignal
    · cases hsignal
      rcases eq_or_ne j i with rfl | hne
      · cases hp.symm.trans hq
        rw [share_of_ne ha, share_of_ne ha, share_of_ne ha]
        exact ⟨_, List.getElem?_set_self hlt, .signal⟩
      · exact hrest ha (hother hne)
  | crash j =>
    obtain ⟨q, hq, hcrash⟩ := Option.bind_eq_some_iff.mp h
    split at hcrash
    · cases hcrash
    · cases hcrash
      rcases eq_or_ne j i with rfl | hne
      · cases hp.symm.trans hq
        rw [share_of_ne ha, share_of_ne ha, share_of_ne ha]
        exact ⟨_, List.getElem?_set_self hlt, .crash⟩
      · exact hrest ha (hother hne)

end

/-! ## Along a run -/

section

variable {store₀ : TickStore} {s s' : Pool} {a : Action} {i : ℕ} {args : RunWorkerArgs}
  {p : Process} {as : List Action}

/-- Where a process of the pool after a step comes from. -/
theorem origin_step (he : Effect s a s') {p' : Process} (hp' : s'.processes[i]? = some p') :
    (∃ p, s.processes[i]? = some p ∧ p'.role = p.role) ∨
      s.processes[i]? = none ∧
        ∃ consumerName role, a = .spawn consumerName role ∧ p' = { consumerName, role } := by
  have hset : ∀ {j : ℕ} {q q' : Process}, s.processes[j]? = some q → q'.role = q.role →
      (s.processes.set j q')[i]? = some p' → ∃ p, s.processes[i]? = some p ∧ p'.role = p.role := by
    intro j q q' hq hrole h
    rcases eq_or_ne j i with rfl | hne
    · rw [List.getElem?_set_self (List.getElem?_eq_some_iff.mp hq).1] at h
      cases h
      exact ⟨q, hq, hrole⟩
    · rw [List.getElem?_set_ne hne] at h
      exact ⟨p', h, rfl⟩
  cases he with
  | publish => exact .inl ⟨p', hp', rfl⟩
  | wait => exact .inl ⟨p', hp', rfl⟩
  | spawn consumerName role =>
    rcases lt_or_ge i s.processes.length with hlt | hge
    · exact .inl ⟨p', (List.getElem?_append_left hlt).symm.trans hp', rfl⟩
    · have hnew : [({ consumerName, role } : Process)][i - s.processes.length]? = some p' :=
        (List.getElem?_append_right hge).symm.trans hp'
      refine .inr ⟨List.getElem?_eq_none hge, consumerName, role, rfl, ?_⟩
      exact List.mem_singleton.mp (List.mem_of_getElem? hnew)
  | quiet a j q q' stream hq _ _ hrole => exact .inl (hset hq hrole hp')
  | crash j q hq =>
    refine .inl (hset hq ?_ hp')
    rfl
  | read j q q' args stream messages hq _ _ _ _ _ hrole => exact .inl (hset hq hrole hp')
  | claim j q q' minIdleMs count stream messages hq _ _ _ hrole => exact .inl (hset hq hrole hp')
  | write j q batch hq =>
    refine .inl (hset hq ?_ hp')
    rfl
  | ack j q batch hq =>
    refine .inl (hset hq ?_ hp')
    rfl

theorem length_processes_step (he : Effect s a s') :
    s.processes.length ≤ s'.processes.length := by
  cases he with
  | publish => exact le_rfl
  | wait => exact le_rfl
  | spawn => exact (List.length_append).symm ▸ Nat.le_add_right _ _
  | _ => exact List.length_set.ge

/-- No process has a share before it is started. -/
theorem trace_share_of_none {β : Type} {part : History → List β}
    (hrun : run step (initial store₀) as = some s) (hnone : s.processes[i]? = none) :
    trace step (share part i) (initial store₀) as = [] := by
  have hall := run_prefix_induction (I := fun as s ↦ s.processes[i]? = none →
    trace step (share part i) (initial store₀) as = []) (fun as s a s' hrun ih h hnone ↦ ?_)
      (fun _ ↦ rfl) hrun
  · exact hall hnone
  · have hnone' : s.processes[i]? = none :=
      List.getElem?_eq_none ((length_processes_step (effect_of_step h)).trans
        (List.getElem?_eq_none_iff.mp hnone))
    have hne : a ≠ .work i := by
      rintro rfl
      rw [step, hnone'] at h
      cases h
    rw [trace_concat hrun h, ih hnone', share_of_ne hne, List.nil_append]

/-- **Induction along a run, for one worker**: what holds when it is spawned and is kept by every
move of it, with what it received, wrote and acknowledged so far. -/
theorem worker_induction {I : List Action → Process → List Handled → List Handled → List ℕ → Prop}
    (hspawn : ∀ as consumerName, I as { consumerName, role := .worker args } [] [] [])
    (hmove : ∀ as s a p p' received wrote acknowledged r w k,
      run step (initial store₀) as = some s → s.processes[i]? = some p → p.role = .worker args →
        I as p received wrote acknowledged → WorkerMove s i args p a p' r w k →
          I (as ++ [a]) p' (received ++ r) (wrote ++ w) (acknowledged ++ k))
    (hrun : run step (initial store₀) as = some s) (hp : s.processes[i]? = some p)
    (hrole : p.role = .worker args) :
    I as p (received (initial store₀) i as) (wrote (initial store₀) i as)
      (acknowledged (initial store₀) i as) := by
  have hall := run_prefix_induction (I := fun as s ↦ ∀ p, s.processes[i]? = some p →
    p.role = .worker args → I as p (received (initial store₀) i as) (wrote (initial store₀) i as)
      (acknowledged (initial store₀) i as)) ?_ (fun p hp ↦ by simp [initial] at hp) hrun
  · exact hall p hp hrole
  intro as s a s' hrun ih h p' hp' hrole'
  rw [received, wrote, acknowledged, trace_concat hrun h, trace_concat hrun h, trace_concat hrun h]
  rcases origin_step (effect_of_step h) hp' with ⟨p, hp, hsame⟩ | ⟨hnone, name, role, rfl, rfl⟩
  · have hrole : p.role = .worker args := hsame.symm.trans hrole'
    obtain ⟨q, hq, hm⟩ := workerMove_of_step hp hrole h
    cases hp'.symm.trans hq
    exact hmove as s a p p' _ _ _ _ _ _ hrun hp hrole (ih p hp hrole) hm
  · have hne : Action.spawn name role ≠ .work i := by simp
    simp only [trace_share_of_none hrun hnone, share_of_ne hne]
    cases show role = .worker args from hrole'
    exact hspawn _ name

end

end Pool

end PostTrade
