import PostTrade.Workers.Shares

/-!
# What a worker has done when it returns

Without `max_messages` a worker that returns has written and acknowledged what it received, and the
number it returns is the number of rows it wrote, wherever a signal reached it (`returns_clean`).

With `max_messages` a worker keeps to the limit, and returns short of it only when idle or on a
signal.  But where the limit is zero the first batch is cut to nothing, and the log line that reads
its first message raises (`limit_respected_iff`).
-/

set_option autoImplicit false

namespace PostTrade

namespace Pool

open ConsumerGroup Machine

/-! ## What a worker has done so far -/

/-- What a worker that did not crash has done with the messages it received: what it wrote is
acknowledged and counted except for the batch in hand, and without a limit it wrote all of them. -/
structure Ledger (args : RunWorkerArgs) (p : Process) (received wrote : List Handled)
    (acknowledged : List ℕ) : Prop where
  fresh : p.phase = .starting → received = [] ∧ p.processed = 0
  acked : ids wrote = acknowledged ++ p.phase.toAck.map ConsumedMessage.messageId
  counted : wrote.length = p.processed + p.phase.toAck.length
  complete : args.maxMessages = none →
    received = wrote ++ p.phase.toWrite.map fun m ↦ (m, p.consumerName)

section

variable {s : Pool} {a : Action} {i : ℕ} {args : RunWorkerArgs} {p p' : Process}
  {received wrote r w : List Handled} {acknowledged k : List ℕ}

/-- A worker moves on with the same batch in hand. -/
theorem Ledger.quiet (hl : Ledger args p received wrote acknowledged)
    (hname : p'.consumerName = p.consumerName) (hprocessed : p'.processed = p.processed)
    (hfresh : p'.phase = .starting → p.phase = .starting)
    (hack : p'.phase.toAck = p.phase.toAck) (hwrite : p'.phase.toWrite = p.phase.toWrite) :
    Ledger args p' (received ++ []) (wrote ++ []) (acknowledged ++ []) := by
  simp only [List.append_nil]
  refine ⟨fun h ↦ ?_, ?_, ?_, fun h ↦ ?_⟩
  · rw [hprocessed]
    exact hl.fresh (hfresh h)
  · rw [hack]
    exact hl.acked
  · rw [hprocessed, hack]
    exact hl.counted
  · rw [hname, hwrite]
    exact hl.complete h

theorem ledger_move (hl : p.phase ≠ .crashed → Ledger args p received wrote acknowledged)
    (hm : WorkerMove s i args p a p' r w k) (hlive : p'.phase ≠ .crashed) :
    Ledger args p' (received ++ r) (wrote ++ w) (acknowledged ++ k) := by
  cases hm with
  | rest => exact (hl hlive).quiet rfl rfl id rfl rfl
  | signal => exact (hl hlive).quiet rfl rfl id rfl rfl
  | crash => exact absurd rfl hlive
  | create hphase =>
    exact (hl (by simp [hphase])).quiet rfl rfl (by simp) (by rw [hphase]; rfl)
      (by rw [hphase]; rfl)
  | stop hphase =>
    exact (hl (by simp [hphase])).quiet rfl rfl (by simp) (by rw [hphase]; rfl)
      (by rw [hphase]; rfl)
  | fail hphase =>
    exact (hl (by simp [hphase])).quiet rfl rfl (by simp) (by rw [hphase]; rfl)
      (by rw [hphase]; rfl)
  | idle hphase =>
    refine (hl (by simp [hphase])).quiet rfl rfl ?_ ?_ ?_
    · dsimp only
      split <;> simp
    · rw [hphase]
      dsimp only
      split <;> rfl
    · rw [hphase]
      dsimp only
      split <;> rfl
  | reportEmpty hphase =>
    exact (hl (by simp [hphase])).quiet rfl rfl (by simp) (by rw [hphase]; rfl)
      (by rw [hphase]; rfl)
  | report batch hphase =>
    exact (hl (by simp [hphase])).quiet rfl rfl (by simp) (by rw [hphase]; rfl)
      (by rw [hphase]; rfl)
  | read hphase hrunning messages hne =>
    obtain ⟨-, hacked, hcounted, hcomplete⟩ := hl (by simp [hphase])
    refine ⟨by simp, by simpa [hphase, Phase.toAck] using hacked,
      by simpa [hphase, Phase.toAck] using hcounted, fun hnone ↦ ?_⟩
    have hall := hcomplete hnone
    simp only [hphase, Phase.toWrite, List.map_nil, List.append_nil] at hall
    simp [hall, hnone, limitBatch, Phase.toWrite]
  | write batch hphase =>
    obtain ⟨-, hacked, hcounted, hcomplete⟩ := hl (by simp [hphase])
    simp only [hphase, Phase.toAck, Phase.toWrite] at hacked hcounted hcomplete
    exact ⟨by simp, by simp [hacked, Phase.toAck], by simp [hcounted, Phase.toAck],
      fun hnone ↦ by simp [hcomplete hnone, Phase.toWrite]⟩
  | ack batch hphase =>
    obtain ⟨-, hacked, hcounted, hcomplete⟩ := hl (by simp [hphase])
    simp only [hphase, Phase.toAck, Phase.toWrite] at hacked hcounted hcomplete
    exact ⟨by simp, by simp [hacked, Phase.toAck], by simp [hcounted, Phase.toAck],
      fun hnone ↦ by simp [hcomplete hnone, Phase.toWrite]⟩

end

/-! ## Without a limit -/

section

variable {store₀ : TickStore} {s : Pool} {i : ℕ} {args : RunWorkerArgs} {p : Process}
  {as : List Action}

/-- The ledger of a worker that did not crash. -/
theorem ledger_of_run (hrun : run step (initial store₀) as = some s)
    (hp : s.processes[i]? = some p) (hrole : p.role = .worker args) (hlive : p.phase ≠ .crashed) :
    Ledger args p (received (initial store₀) i as) (wrote (initial store₀) i as)
      (acknowledged (initial store₀) i as) := by
  refine worker_induction (I := fun _ p received wrote acknowledged ↦ p.phase ≠ .crashed →
    Ledger args p received wrote acknowledged) (fun as name _ ↦ ?_) ?_ hrun hp hrole hlive
  · exact ⟨fun _ ↦ ⟨rfl, rfl⟩, rfl, rfl, fun _ ↦ rfl⟩
  · intro as s a p p' _ _ _ _ _ _ hrun hp hrole hl hm hlive
    exact ledger_move hl hm hlive

/-- **A worker without a limit stops cleanly.**  When it has returned, it has written what it
received, once each, and acknowledged it; none of that is pending, and the number it returns is the
number of rows it wrote.  If nobody claims, nobody else wrote any of it. -/
theorem returns_clean (hrun : run step (initial store₀) as = some s)
    (hp : s.processes[i]? = some p) (hrole : p.role = .worker args)
    (hmax : args.maxMessages = none) (hreturned : p.phase = .stopped) :
    let messages := received (initial store₀) i as
    wrote (initial store₀) i as = messages ∧ acknowledged (initial store₀) i as = ids messages ∧
      (ids messages).Nodup ∧ (messages.map rowOf).Sublist s.store ∧
        (∀ id ∈ ids messages, id ∉ s.stream.pelIds) ∧ p.processed = messages.length ∧
          ((∀ a ∈ as, a.isClaim = false) → ∀ id ∈ ids messages, s.timesWritten id = 1) := by
  intro messages
  have hl := ledger_of_run hrun hp hrole (by rw [hreturned]; simp)
  have hs := sound_of_run hrun
  have hwrote : messages = wrote (initial store₀) i as := by
    simpa [hreturned, Phase.toWrite] using hl.complete hmax
  have hacked : ids messages = acknowledged (initial store₀) i as := by
    simpa [hwrote, hreturned, Phase.toAck] using hl.acked
  have hwritten : messages.Sublist s.history.written :=
    hwrote ▸ trace_share_sublist (fun _ _ _ he ↦ (history_step he).2.1) hrun
  have hdelivered : messages.Sublist s.history.delivered :=
    trace_share_sublist (fun _ _ _ he ↦ (history_step he).1) hrun
  have hacknowledged : (ids messages).Sublist s.history.acked :=
    hacked ▸ trace_share_sublist (fun _ _ _ he ↦ (history_step he).2.2) hrun
  refine ⟨hwrote.symm, hacked.symm, ?_, ?_, ?_, ?_, ?_⟩
  · exact (hs.delivered ▸ List.nodup_range : (ids s.history.delivered).Nodup).sublist
      (hdelivered.map _)
  · rw [hs.store]
    exact (hwritten.map rowOf).trans (List.sublist_append_right _ _)
  · exact fun id hid ↦ (hs.acked id (hacknowledged.subset hid)).2
  · simpa [hwrote, hreturned, Phase.toAck] using hl.counted.symm
  · intro hclaim id hid
    have hone := (once_of_run hrun (claimSpares_of_no_claim hclaim) (k := id)).le_one
    have hpos : 0 < s.timesWritten id :=
      List.count_pos_iff.mpr ((hwritten.map _).subset hid)
    omega

/-- Two workers share two entries, and one of them is told to stop between the write and the
acknowledgement of its entry. -/
def signalledRun : List Action :=
  [.publish (btcTick 1 0), .publish (btcTick 2 0)]
    ++ runWorkerPool 2 { readBatchSize := 1 }
    ++ [.work 0, .work 1, .work 0, .work 1, .work 0, .signal 0, .work 0, .work 0, .work 0]

/-- The state this leaves. -/
def signalledPool : Pool := (run step (initial []) signalledRun).getD (initial [])

/-- The worker that was told to stop, when it has returned. -/
def signalledWorker : Process where
  consumerName := "worker-0".toList
  role := .worker { readBatchSize := 1 }
  phase := .stopped
  running := false
  processed := 1

/-- Its entry is written and acknowledged all the same. -/
theorem returns_clean_signalled :
    ids (received (initial []) 0 signalledRun) = [0] ∧ 0 ∉ signalledPool.stream.pelIds ∧
      signalledPool.timesWritten 0 = 1 := by
  have hrun : run step (initial []) signalledRun = some signalledPool := by decide +kernel
  have hp : signalledPool.processes[0]? = some signalledWorker := by decide +kernel
  have hids : ids (received (initial []) 0 signalledRun) = [0] := by decide +kernel
  have hmem : 0 ∈ ids (received (initial []) 0 signalledRun) := by simp [hids]
  obtain ⟨-, -, -, -, hpending, -, honce⟩ := returns_clean hrun hp rfl rfl rfl
  exact ⟨hids, hpending 0 hmem, honce (by decide) 0 hmem⟩

end

/-! ## With a limit -/

/-- The batch of a loop body under way. -/
def Phase.held : Phase → Option (List ConsumedMessage)
  | .writing batch => some batch
  | .acking batch => some batch
  | .reporting batch => some batch
  | _ => none

/-- The last read found nothing, and was one too many. -/
def StoppedIdle (args : RunWorkerArgs) (p : Process) : Prop :=
  0 < p.idleReads ∧ limitReached args.maxIdleReads p.idleReads = true

/-- The worker has raised nothing, and if it has returned it has written and acknowledged as much as
it says, within the limit, and short of the limit only when idle or on a signal. -/
structure LimitRespected (limit i : ℕ) (args : RunWorkerArgs) (as : List Action) (p : Process)
    (wrote : List Handled) (acknowledged : List ℕ) : Prop where
  notRaised : p.phase ≠ .raised
  wrote : p.phase = .stopped → wrote.length = p.processed
  acknowledged : p.phase = .stopped → acknowledged.length = p.processed
  within : p.phase = .stopped → p.processed ≤ limit
  reached : p.phase = .stopped →
    p.processed = limit ∨ StoppedIdle args p ∨ Action.signal i ∈ as

/-- What a worker with a limit keeps to. -/
structure Limited (limit i : ℕ) (args : RunWorkerArgs) (as : List Action) (p : Process)
    (received : List Handled) : Prop where
  bound : p.processed + p.phase.batch.length ≤ limit
  fresh : p.phase = .starting → p.processed = 0
  /-- The flag falls on a signal or at the limit. -/
  flag : p.running = false → Action.signal i ∈ as ∨ limit ≤ p.processed
  stopped : p.phase = .stopped → StoppedIdle args p ∨ p.running = false
  room : p.phase = .looping → p.running = true → p.processed < limit ∨ limit = 0
  /-- A batch is cut to nothing exactly where the limit is zero. -/
  held : ∀ batch, Phase.held p.phase = some batch → received ≠ [] ∧ (batch = [] ↔ limit = 0)
  raised : p.phase = .raised → received ≠ [] ∧ limit = 0
  free : p.phase = .starting ∨ p.phase = .looping ∨ p.phase = .stopped → received = [] ∨ 0 < limit

/-- A limit that is not exceeded yet leaves the first messages up to it. -/
theorem limitBatch_eq_take {limit processed : ℕ} (h : processed ≤ limit)
    (messages : List ConsumedMessage) :
    limitBatch (some limit) processed messages = messages.take (limit - processed) := by
  rw [limitBatch]
  split
  · rw [sliceTo, if_neg (by omega)]
    congr 1
    omega
  · rw [List.take_of_length_le (by omega)]

section

variable {s : Pool} {a : Action} {i limit : ℕ} {args : RunWorkerArgs} {p p' : Process}
  {as : List Action} {received r w : List Handled} {k : List ℕ}

theorem limited_move (hmax : args.maxMessages = some (limit : ℤ))
    (hread : p.phase = .looping → ∃ result,
      StreamConsumer.read s.stream p.consumerName args.readBatchSize s.now = .ok result)
    (hl : Limited limit i args as p received) (hm : WorkerMove s i args p a p' r w k) :
    Limited limit i args (as ++ [a]) p' (received ++ r) := by
  obtain ⟨hbound, hfresh, hflag, hstopped, hroom, hheld, hraised, hfree⟩ := hl
  have hflag' : p.running = false → Action.signal i ∈ as ++ [a] ∨ limit ≤ p.processed :=
    fun h ↦ (hflag h).imp_left (List.mem_append_left _)
  cases hm with
  | rest =>
    rw [List.append_nil]
    exact ⟨hbound, hfresh, hflag', hstopped, hroom, hheld, hraised, hfree⟩
  | signal =>
    rw [List.append_nil]
    exact ⟨hbound, hfresh, fun _ ↦ .inl (by simp), fun _ ↦ .inr rfl, fun _ h ↦ by simp at h, hheld,
      hraised, hfree⟩
  | crash =>
    rw [List.append_nil]
    refine ⟨?_, by simp, hflag', by simp, by simp, by simp [Phase.held], by simp, by simp⟩
    exact (Nat.le_add_right _ _).trans hbound
  | create hphase =>
    rw [List.append_nil]
    have hzero := hfresh hphase
    refine ⟨?_, by simp, hflag', by simp, fun _ _ ↦ ?_, by simp [Phase.held], by simp,
      fun _ ↦ hfree (.inl hphase)⟩
    · simp [Phase.batch, hzero]
    · have : p.processed = 0 := hzero
      show p.processed < limit ∨ limit = 0
      omega
  | stop hphase hrunning =>
    rw [List.append_nil]
    refine ⟨?_, by simp, hflag', fun _ ↦ .inr hrunning, by simp, by simp [Phase.held], by simp,
      fun _ ↦ hfree (.inr (.inl hphase))⟩
    exact (Nat.le_add_right _ _).trans hbound
  | fail hphase error herror =>
    obtain ⟨result, hok⟩ := hread hphase
    rw [herror] at hok
    cases hok
  | idle hphase =>
    rw [List.append_nil]
    have hprocessed : p.processed ≤ limit := (Nat.le_add_right _ _).trans hbound
    by_cases hlimit : limitReached args.maxIdleReads (p.idleReads + 1) = true
    · simp only [hlimit, if_true]
      exact ⟨by simpa [Phase.batch] using hprocessed, by simp, hflag',
        fun _ ↦ .inl ⟨Nat.succ_pos _, hlimit⟩, by simp, by simp [Phase.held], by simp,
        fun _ ↦ hfree (.inr (.inl hphase))⟩
    · simp only [hlimit, if_false, Bool.false_eq_true]
      exact ⟨by simpa [Phase.batch] using hprocessed, by simp, hflag', by simp,
        fun _ ↦ hroom hphase, by simp [Phase.held], by simp, fun _ ↦ hfree (.inr (.inl hphase))⟩
  | read hphase hrunning messages hne =>
    have hprocessed : p.processed ≤ limit := (Nat.le_add_right _ _).trans hbound
    have hpos : 0 < messages.length := List.length_pos_iff.mpr hne
    have hcut := limitBatch_eq_take hprocessed messages
    have hroom' := hroom hphase hrunning
    rw [hmax, hcut]
    refine ⟨?_, by simp, hflag', by simp, by simp, ?_, by simp, by simp⟩
    · simp only [Phase.batch, List.length_take]
      omega
    · rintro batch ⟨⟩
      refine ⟨by simp [hne], ?_⟩
      rw [← List.length_eq_zero_iff, List.length_take]
      omega
  | write batch hphase =>
    rw [List.append_nil]
    refine ⟨?_, by simp, hflag', by simp, by simp, ?_, by simp, by simp⟩
    · simpa [hphase, Phase.batch] using hbound
    · simpa [hphase, Phase.held] using hheld
  | ack batch hphase =>
    rw [List.append_nil]
    simp only [hphase, Phase.batch] at hbound
    refine ⟨by simpa [Phase.batch] using hbound, by simp, fun h ↦ ?_, by simp, by simp, ?_, by simp,
      by simp⟩
    · refine (hflag' h).imp_right fun h ↦ ?_
      exact h.trans (Nat.le_add_right _ _)
    · simpa [hphase, Phase.held] using hheld
  | reportEmpty hphase =>
    rw [List.append_nil]
    obtain ⟨hreceived, hzero⟩ := hheld [] (by simp [hphase, Phase.held])
    refine ⟨?_, by simp, hflag', by simp, by simp, by simp [Phase.held],
      fun _ ↦ ⟨hreceived, hzero.mp rfl⟩, by simp⟩
    exact (Nat.le_add_right _ _).trans hbound
  | report batch hphase hne =>
    rw [List.append_nil]
    have hprocessed : p.processed ≤ limit := (Nat.le_add_right _ _).trans hbound
    have hpos : limit ≠ 0 := fun hzero ↦
      hne (((hheld batch (by simp [hphase, Phase.held])).2).mpr hzero)
    refine ⟨by simpa [Phase.batch] using hprocessed, by simp, fun h ↦ ?_, by simp, fun _ h ↦ ?_,
      by simp [Phase.held], by simp, fun _ ↦ .inr (Nat.pos_of_ne_zero hpos)⟩
    · simp only [hmax, limitReached, Bool.and_eq_false_iff, Bool.not_eq_false', decide_eq_true_eq,
        Nat.cast_le] at h
      exact h.elim hflag' .inr
    · simp only [hmax, limitReached, Bool.and_eq_true, Bool.not_eq_true', decide_eq_false_iff_not,
        Nat.cast_le, not_le] at h
      exact .inl h.2

end

section

variable {store₀ : TickStore} {s : Pool} {i limit : ℕ} {args : RunWorkerArgs} {p : Process}
  {as : List Action}

theorem limited_of_run (hrun : run step (initial store₀) as = some s)
    (hp : s.processes[i]? = some p) (hrole : p.role = .worker args)
    (hmax : args.maxMessages = some (limit : ℤ)) (hsize : 1 ≤ args.readBatchSize) :
    Limited limit i args as p (received (initial store₀) i as) := by
  refine worker_induction (I := fun as p received _ _ ↦ Limited limit i args as p received) ?_ ?_
    hrun hp hrole
  · intro as name
    exact ⟨by simp [Phase.batch], fun _ ↦ rfl, by simp, by simp, by simp, by simp [Phase.held],
      by simp, fun _ ↦ .inl rfl⟩
  · intro as s a p p' _ _ _ _ _ _ hrun hp hrole hl hm
    refine limited_move hmax (fun hlooping ↦ ?_) hl hm
    have hready : GroupReady s := run_induction (fun _ _ _ hs h ↦ groupReady_step h hs)
      (.inr fun q hq ↦ absurd hq List.not_mem_nil) hrun
    refine StreamConsumer.exists_read_of_created _ _ (hready.resolve_right fun hidle ↦ ?_) hsize _
    have hphase := hidle p (List.mem_of_getElem? hp)
    simp [hlooping] at hphase

/-- **When the message limit is respected without error**: in every state of a worker that is under
way or was killed, and in the state it has ended in exactly when the limit is not zero or no read
returned anything. -/
theorem limit_respected_iff (hrun : run step (initial store₀) as = some s)
    (hp : s.processes[i]? = some p) (hrole : p.role = .worker args)
    (hmax : args.maxMessages = some (limit : ℤ)) (hsize : 1 ≤ args.readBatchSize) :
    LimitRespected limit i args as p (wrote (initial store₀) i as)
        (acknowledged (initial store₀) i as) ↔
      (p.phase = .stopped ∨ p.phase = .raised →
        0 < limit ∨ received (initial store₀) i as = []) := by
  have hl := limited_of_run hrun hp hrole hmax hsize
  constructor
  · rintro hrespected (hstopped | hraised)
    · exact (hl.free (.inr (.inr hstopped))).symm
    · exact absurd hraised hrespected.notRaised
  · intro hcondition
    have hledger : p.phase = .stopped →
        (wrote (initial store₀) i as).length = p.processed ∧
          (acknowledged (initial store₀) i as).length = p.processed := by
      intro hstopped
      have hled := ledger_of_run hrun hp hrole (by rw [hstopped]; simp)
      have hcounted := hled.counted
      have hacked := congrArg List.length hled.acked
      simp only [hstopped, Phase.toAck, ids, List.length_map, List.length_append,
        List.length_nil] at hcounted hacked
      omega
    refine ⟨fun hraised ↦ ?_, fun h ↦ (hledger h).1, fun h ↦ (hledger h).2,
      fun _ ↦ (Nat.le_add_right _ _).trans hl.bound, fun hstopped ↦ ?_⟩
    · obtain ⟨hreceived, hzero⟩ := hl.raised hraised
      rcases hcondition (.inr hraised) with hpos | hnil
      · omega
      · exact hreceived hnil
    · rcases hl.stopped hstopped with hidle | hflag
      · exact .inr (.inl hidle)
      · rcases hl.flag hflag with hsignal | hreached
        · exact .inr (.inr hsignal)
        · exact .inl (le_antisymm ((Nat.le_add_right _ _).trans hl.bound) hreached)

end

/-- A worker with a limit takes its first steps over a stream of two entries. -/
def limitRun (limit : ℤ) (steps : ℕ) : List Action :=
  [.publish (btcTick 1 0), .publish (btcTick 2 0),
    .spawn "worker-0".toList (.worker { maxMessages := some limit })]
    ++ List.replicate steps (.work 0)

/-- The state this leaves. -/
def limitPool (limit : ℤ) (steps : ℕ) : Pool :=
  (run step (initial []) (limitRun limit steps)).getD (initial [])

/-- The worker with a limit of one, when it has returned. -/
def limitedWorker : Process where
  consumerName := "worker-0".toList
  role := .worker { maxMessages := some 1 }
  phase := .stopped
  running := false
  processed := 1

/-- It has written one of the two. -/
theorem limit_respected_one :
    LimitRespected 1 0 { maxMessages := some 1 } (limitRun 1 6) limitedWorker
      (wrote (initial []) 0 (limitRun 1 6)) (acknowledged (initial []) 0 (limitRun 1 6)) := by
  have hrun : run step (initial []) (limitRun 1 6) = some (limitPool 1 6) := by decide +kernel
  have hp : (limitPool 1 6).processes[0]? = some limitedWorker := by decide +kernel
  exact (limit_respected_iff hrun hp rfl rfl (by decide)).mpr fun _ ↦ .inl Nat.one_pos

/-- A worker limited to no message at all reads its first batch, cuts it to nothing, writes and
acknowledges nothing, and raises at the log line. -/
theorem limit_zero_raises :
    run step (initial []) (limitRun 0 5) = some (limitPool 0 5) ∧
      (limitPool 0 5).processes.map Process.role = [.worker { maxMessages := some 0 }] ∧
      (limitPool 0 5).processes.map Process.phase = [.raised] ∧
      wrote (initial []) 0 (limitRun 0 5) = [] := by
  refine ⟨?_, ?_, ?_, ?_⟩
  · decide +kernel
  · decide +kernel
  · decide +kernel
  · decide +kernel

end Pool

end PostTrade
