import PostTrade.Simulate.AtMostOnce

/-!
# A simulator on the stream is a run over what it reads

`Simulator.run` is given the batches of messages its reads return.  Here they come from the stream:
`refines_run` says that a simulator process, while no other one takes a step and nothing else writes
to the stores, has done what `run` does on batches whose ticks are, in order, those the group had
next.  So what is known of every `run` is known of such a simulator on the stream, wherever it
stands.

A fill that is written and not yet settled is the one place where the process is between two states
of `run`.
-/

set_option autoImplicit false

namespace PostTrade

namespace Simulator

/-! ## The loop while it goes on -/

section GoesOn

variable (config : SimulatorConfig) (maxFills maxIdleReads : Option ℤ)

/-- Where the loop of `run` stands after the reads, if they did not end it. -/
def goesOn : ℤ → List (List (Tick × Draws)) → Simulator → Option (ℤ × Simulator)
  | idle, [], s => some (idle, s)
  | idle, [] :: reads, s =>
    if maxIdleReads.any fun m ↦ decide (m ≤ idle + 1) then none else goesOn (idle + 1) reads s
  | _, (msg :: batch) :: reads, s =>
    match runBatch config maxFills (msg :: batch) s with
    | (_, true) => none
    | (s, false) => goesOn 0 reads s

variable {config maxFills maxIdleReads} {idle idle' : ℤ} {reads : List (List (Tick × Draws))}
  {s s' : Simulator}

theorem goesOn_append (h : goesOn config maxFills maxIdleReads idle reads s = some (idle', s'))
    (more : List (List (Tick × Draws))) :
    goesOn config maxFills maxIdleReads idle (reads ++ more) s
      = goesOn config maxFills maxIdleReads idle' more s' := by
  induction idle, reads, s using goesOn.induct config maxFills maxIdleReads with
  | case1 idle s =>
    cases h
    rfl
  | case2 idle reads s hstop =>
    rw [goesOn, if_pos hstop] at h
    cases h
  | case3 idle reads s hstop ih =>
    rw [goesOn, if_neg hstop] at h
    rw [List.cons_append, goesOn, if_neg hstop, ih h]
  | case4 idle msg batch reads s s₁ hbatch =>
    rw [goesOn, hbatch] at h
    cases h
  | case5 idle msg batch reads s s₁ hbatch ih =>
    rw [goesOn, hbatch] at h
    rw [List.cons_append, goesOn, hbatch]
    exact ih h

theorem runFrom_append (h : goesOn config maxFills maxIdleReads idle reads s = some (idle', s'))
    (more : List (List (Tick × Draws))) :
    runFrom config maxFills maxIdleReads idle (reads ++ more) s
      = runFrom config maxFills maxIdleReads idle' more s' := by
  induction idle, reads, s using goesOn.induct config maxFills maxIdleReads with
  | case1 idle s =>
    cases h
    rfl
  | case2 idle reads s hstop =>
    rw [goesOn, if_pos hstop] at h
    cases h
  | case3 idle reads s hstop ih =>
    rw [goesOn, if_neg hstop] at h
    rw [List.cons_append, runFrom, if_neg hstop, ih h]
  | case4 idle msg batch reads s s₁ hbatch =>
    rw [goesOn, hbatch] at h
    cases h
  | case5 idle msg batch reads s s₁ hbatch ih =>
    rw [goesOn, hbatch] at h
    rw [List.cons_append, runFrom, hbatch]
    exact ih h

theorem runBatch_append {part : List (Tick × Draws)}
    (h : runBatch config maxFills part s = (s', false)) (more : List (Tick × Draws)) :
    runBatch config maxFills (part ++ more) s = runBatch config maxFills more s' := by
  induction part generalizing s with
  | nil =>
    cases h
    rfl
  | cons msg part ih =>
    obtain ⟨tick, draws⟩ := msg
    rw [runBatch] at h
    rw [List.cons_append, runBatch]
    dsimp only at h ⊢
    split at h
    · split at h
      · cases h
      · rename_i htrade hgo
        rw [if_pos htrade, if_neg hgo]
        exact ih h
    · rename_i htrade
      rw [if_neg htrade]
      exact ih h

end GoesOn

end Simulator

namespace Simulation

open ConsumerGroup Machine Simulator

/-! ## What the group has delivered since -/

/-- The ticks of the entries the group has delivered from entry `k` on. -/
def ticksSince (k : ℕ) (s : Simulation) : List Tick :=
  ((s.stream.entries.take s.stream.cursor).drop k).filterMap Entry.data

theorem ticksSince_cursor (s : Simulation) : s.ticksSince s.stream.cursor = [] := by
  rw [ticksSince, List.drop_eq_nil_of_le (List.length_take_le _ _), List.filterMap_nil]

theorem prefix_ticksSince (k : ℕ) (s : Simulation) :
    s.ticksSince k <+: (s.stream.entries.drop k).filterMap Entry.data := by
  rw [ticksSince, List.drop_take]
  exact (List.take_prefix _ _).filterMap _

theorem ticksSince_congr {k : ℕ} {s s' : Simulation}
    (hentries : s.stream.entries <+: s'.stream.entries)
    (hcursor : s'.stream.cursor = s.stream.cursor) : s'.ticksSince k = s.ticksSince k := by
  obtain ⟨more, hmore⟩ := hentries
  rw [ticksSince, ticksSince, hcursor, ← hmore, List.take_append_of_le_length s.stream.cursor_le]

theorem map_tick_parseEntries (entries : List (Entry × ℕ)) :
    (parseEntries entries).map ConsumedMessage.tick
      = (entries.map Prod.fst).filterMap Entry.data := by
  rw [parseEntries, List.map_filterMap, List.filterMap_map]
  refine List.filterMap_congr fun e _ ↦ ?_
  rw [Option.map_map]
  exact Option.map_id'

/-- What a read delivers comes next. -/
theorem ticksSince_read {k : ℕ} {s s' : Simulation} {consumerName : Str} {count : ℤ} {now : ℕ}
    {messages : List ConsumedMessage} (hk : k ≤ s.stream.cursor)
    (hread : StreamConsumer.read s.stream consumerName count now = .ok (s'.stream, messages)) :
    s'.ticksSince k = s.ticksSince k ++ messages.map ConsumedMessage.tick := by
  obtain ⟨-, rfl, hentries, hcursor, -⟩ := StreamConsumer.read_eq_ok hread
  have hle := s.stream.cursor_le
  have hfst : (s.stream.nextBatch count.toNat).map Prod.fst
      = (s.stream.entries.drop s.stream.cursor).take
          (s.stream.nextBatch count.toNat).length := by
    rw [GroupStream.nextBatch, GroupStream.undelivered, List.map_take, List.map_drop,
      List.zipIdx_map_fst, List.length_take, List.length_drop, List.length_zipIdx,
      ← List.length_drop, ← List.take_eq_take_min]
  rw [map_tick_parseEntries, hfst, ticksSince, ticksSince, hentries, hcursor, List.take_add,
    List.drop_append_of_le_length (by rw [List.length_take]; omega), List.filterMap_append]

/-! ## How far a process has come -/

/-- The ticks of the messages of the reads. -/
def readTicks (reads : List (List (Tick × Draws))) : List Tick := reads.flatten.map Prod.fst

/-- Every read returns at most as many messages as it asks for. -/
def Sized (reads : List (List (Tick × Draws))) : Prop := ∀ batch ∈ reads, batch.length ≤ 20

section Progress

variable (config : SimulatorConfig) (maxFills maxIdleReads : Option ℤ) (start : Simulator)

/-- After the reads and the first part of another, the loop is at `sim`, with `waiting` to come. -/
structure InBatch (reads : List (List (Tick × Draws))) (part : List (Tick × Draws))
    (before sim : Simulator) (waiting : List ConsumedMessage) (handled delivered : List Tick) :
    Prop where
  goes : ∃ idle, goesOn config maxFills maxIdleReads 0 reads start = some (idle, before)
  ran : runBatch config maxFills part before = (sim, false)
  sized : Sized reads
  count : part.length + waiting.length ≤ 20
  done : handled = readTicks reads ++ part.map Prod.fst
  due : delivered = handled ++ waiting.map ConsumedMessage.tick

/-- A process that stands in this phase, after so many idle reads in a row, with this memory and
these stores, that has handled the first ticks and was delivered the second, has come there by
doing what `run` does from `start`. -/
def Progress (phase : SimulatorPhase) (idle : ℤ) (sim : Simulator)
    (handled delivered : List Tick) : Prop :=
  match phase with
  | .starting => sim = start ∧ idle = 0 ∧ handled = [] ∧ delivered = []
  | .looping => ∃ reads, Sized reads ∧ handled = readTicks reads ∧ delivered = handled ∧
    goesOn config maxFills maxIdleReads 0 reads start = some (idle, sim)
  | .consuming message rest | .handling message rest => idle = 0 ∧ ∃ reads part before,
    InBatch config maxFills maxIdleReads start reads part before sim (message :: rest) handled
      delivered
  | .settling message draws rest => idle = 0 ∧ ∃ reads part before tracked handled',
    InBatch config maxFills maxIdleReads start reads part before tracked (message :: rest) handled'
      delivered ∧
    draws.tradeRoll < config.tradeProbability ∧ handled = handled' ++ [message.tick] ∧
    sim = (tracked.trackSequence message.tick).bookFill config draws message.tick
  | .stopped | .raised => ∃ reads, Sized reads ∧ handled = readTicks reads ∧
    handled <+: delivered ∧ Simulator.run config maxFills maxIdleReads reads start = sim

end Progress

@[simp] theorem readTicks_concat (reads : List (List (Tick × Draws)))
    (batch : List (Tick × Draws)) :
    readTicks (reads ++ [batch]) = readTicks reads ++ batch.map Prod.fst := by
  simp [readTicks]

theorem Sized.concat {reads : List (List (Tick × Draws))} (h : Sized reads)
    {batch : List (Tick × Draws)} (hbatch : batch.length ≤ 20) : Sized (reads ++ [batch]) := by
  intro b hb
  rcases List.mem_append.mp hb with hb | hb
  · exact h b hb
  · rwa [List.mem_singleton.mp hb]

section Batches

variable {config : SimulatorConfig} {maxFills maxIdleReads : Option ℤ} {start : Simulator}
  {reads : List (List (Tick × Draws))} {part : List (Tick × Draws)} {idle : ℤ}
  {before sim sim' : Simulator} {message : ConsumedMessage} {rest waiting : List ConsumedMessage}
  {draws : Draws} {handled delivered : List Tick}

/-- The batch that ends the run, or its part so far, is the last of its reads. -/
theorem run_concat {stopped : Bool}
    (hgo : goesOn config maxFills maxIdleReads 0 reads start = some (idle, before))
    (hpart : runBatch config maxFills part before = (sim, stopped)) (hne : part ≠ []) :
    Simulator.run config maxFills maxIdleReads (reads ++ [part]) start = sim := by
  obtain ⟨msg, batch, rfl⟩ := List.exists_cons_of_ne_nil hne
  rw [Simulator.run, runFrom_append hgo, runFrom, hpart]
  cases stopped with
  | true => rfl
  | false => rfl

/-- A batch begins. -/
theorem InBatch.begin (hsized : Sized reads)
    (hgo : goesOn config maxFills maxIdleReads 0 reads start = some (idle, sim))
    (hcount : waiting.length ≤ 20) :
    InBatch config maxFills maxIdleReads start reads [] sim sim waiting (readTicks reads)
      (readTicks reads ++ waiting.map ConsumedMessage.tick) where
  goes := ⟨idle, hgo⟩
  ran := rfl
  sized := hsized
  count := by simpa using hcount
  done := (List.append_nil _).symm
  due := rfl

/-- One more message of a batch is handled, and the loop goes on. -/
theorem InBatch.next
    (h : InBatch config maxFills maxIdleReads start reads part before sim (message :: rest) handled
      delivered)
    (hstep : runBatch config maxFills [(message.tick, draws)] sim = (sim', false)) :
    Progress config maxFills maxIdleReads start (.next rest) 0 sim' (handled ++ [message.tick])
      delivered := by
  obtain ⟨idle, hgo⟩ := h.goes
  have hcount := h.count
  have hpart : runBatch config maxFills (part ++ [(message.tick, draws)]) before
      = (sim', false) := (runBatch_append h.ran _).trans hstep
  have hhandled : handled ++ [message.tick]
      = readTicks reads ++ (part ++ [(message.tick, draws)]).map Prod.fst := by
    rw [h.done, List.map_append, List.append_assoc]
    rfl
  have hdelivered : delivered = handled ++ [message.tick] ++ rest.map ConsumedMessage.tick := by
    rw [h.due, List.append_assoc]
    rfl
  cases rest with
  | nil =>
    refine ⟨reads ++ [part ++ [(message.tick, draws)]], h.sized.concat (by simpa using hcount),
      hhandled.trans (readTicks_concat _ _).symm, hdelivered.trans (List.append_nil _), ?_⟩
    obtain ⟨msg, batch, hne⟩ := List.exists_cons_of_ne_nil
      (List.concat_ne_nil (message.tick, draws) part)
    rw [goesOn_append hgo, hne, goesOn, ← hne, hpart]
    rfl
  | cons message rest =>
    refine ⟨rfl, reads, _, before, h.goes, hpart, h.sized, ?_, hhandled, hdelivered⟩
    simp only [List.length_append, List.length_cons, List.length_nil] at hcount ⊢
    omega

/-- One more message of a batch is handled, and the run ends with it. -/
theorem InBatch.stop
    (h : InBatch config maxFills maxIdleReads start reads part before sim (message :: rest) handled
      delivered)
    (hstep : runBatch config maxFills [(message.tick, draws)] sim = (sim', true)) :
    Progress config maxFills maxIdleReads start .stopped 0 sim' (handled ++ [message.tick])
      delivered := by
  obtain ⟨idle, hgo⟩ := h.goes
  have hcount := h.count
  refine ⟨reads ++ [part ++ [(message.tick, draws)]], h.sized.concat ?_, ?_, ?_,
    run_concat hgo ((runBatch_append h.ran _).trans hstep) (by simp)⟩
  · simp only [List.length_append, List.length_cons, List.length_nil] at hcount ⊢
    omega
  · rw [readTicks_concat, h.done, List.map_append, List.append_assoc]
    rfl
  · rw [h.due]
    exact ⟨rest.map ConsumedMessage.tick, by rw [List.append_assoc]; rfl⟩

/-- What a fill does to a batch. -/
theorem runBatch_singleton (htrade : draws.tradeRoll < config.tradeProbability) (tick : Tick)
    (s : Simulator) :
    let s' := ((s.trackSequence tick).bookFill config draws tick).settleFill config draws tick
    runBatch config maxFills [(tick, draws)] s =
      (s', maxFills.any fun m ↦ decide (m ≤ (s'.fillsEmitted : ℤ))) := by
  intro s'
  rw [runBatch]
  dsimp only
  rw [if_pos htrade]
  split
  · rename_i hstop
    exact congrArg _ hstop.symm
  · rename_i hgo
    exact congrArg _ (Bool.not_eq_true _ ▸ hgo).symm

end Batches

/-! ## The steps of the process -/

/-- How far the process has come since entry `k`. -/
def Reached (start : Simulator) (k : ℕ) (p : SimulatorProcess) (handled : List Tick)
    (s : Simulation) : Prop :=
  Progress p.config p.maxFills p.maxIdleReads start p.phase p.idle
    (p.memory.attach s.tickStore s.bookStore) handled (s.ticksSince k)

/-- Process `i` was `p`; it has moved on, with the same settings, and has come as far as it
stands. -/
def Advances (start : Simulator) (k i : ℕ) (p : SimulatorProcess) (handled : List Tick)
    (s s' : Simulation) : Prop :=
  ∃ p' new, s'.simulators = s.simulators.set i p' ∧
    (p'.config = p.config ∧ p'.maxFills = p.maxFills ∧ p'.maxIdleReads = p.maxIdleReads) ∧
    s'.history.handled = s.history.handled ++ new ∧
    Reached start k p' (handled ++ new.map ConsumedMessage.tick) s'

section Steps

variable {start : Simulator} {s s' : Simulation} {i k : ℕ} {p : SimulatorProcess}
  {message : ConsumedMessage} {rest : List ConsumedMessage} {draws : Draws} {handled : List Tick}

theorem advances_createConsumer (hphase : p.phase = .starting)
    (h : Reached start k p handled s) :
    Advances start k i p handled s (s.createConsumer i p) := by
  have hentries : s.stream.entries <+: (s.createConsumer i p).stream.entries := by
    rw [show (s.createConsumer i p).stream.entries = s.stream.entries from
      GroupStream.xgroupCreate_entries _]
  have hsame := ticksSince_congr (k := k) hentries (GroupStream.xgroupCreate_cursor _)
  rw [Reached, hphase] at h
  obtain ⟨hsim, hidle, rfl, hdelivered⟩ := h
  refine ⟨_, [], rfl, ⟨rfl, rfl, rfl⟩, (List.append_nil _).symm, [], by simp [Sized], rfl,
    hsame.trans hdelivered, ?_⟩
  rw [← hsim, ← hidle]
  rfl

/-- A read returns what it asks for at most. -/
theorem length_read_le {stream stream' : TickStream} {consumerName : Str} {now : ℕ}
    {messages : List ConsumedMessage}
    (hread : StreamConsumer.read stream consumerName 20 now = .ok (stream', messages)) :
    messages.length ≤ 20 := by
  obtain ⟨-, rfl, -⟩ := StreamConsumer.read_eq_ok hread
  have hsub := (sublist_map_messageId (stream.nextBatch (20 : ℤ).toNat)).length_le
  rw [List.length_map, List.length_map] at hsub
  exact hsub.trans (List.length_take_le _ _)

theorem advances_readMessages (hk : k ≤ s.stream.cursor) (hphase : p.phase = .looping)
    (h : Reached start k p handled s) :
    Advances start k i p handled s (s.readMessages i p) := by
  rw [Reached, hphase] at h
  obtain ⟨reads, hsized, rfl, hdelivered, hgo⟩ := h
  rw [readMessages]
  split
  · have hrun := runFrom_append hgo []
    rw [List.append_nil] at hrun
    exact ⟨_, [], rfl, ⟨rfl, rfl, rfl⟩, (List.append_nil _).symm, reads, hsized,
      List.append_nil _, by rw [List.map_nil, List.append_nil]; exact hdelivered ▸ List.prefix_rfl,
      hrun⟩
  · rename_i stream hread
    have hticks := @ticksSince_read k s { s with stream } _ _ _ _ hk hread
    rw [List.map_nil, List.append_nil, hdelivered] at hticks
    have hreads : readTicks (reads ++ [[]]) = readTicks reads := by simp
    have hidle : Sized (reads ++ [[]]) := hsized.concat (by simp)
    by_cases hstop : p.maxIdleReads.any fun m ↦ decide (m ≤ p.idle + 1)
    · have hrun := runFrom_append hgo [[]]
      rw [runFrom, if_pos hstop] at hrun
      refine ⟨_, [], rfl, ⟨rfl, rfl, rfl⟩, (List.append_nil _).symm, ?_⟩
      rw [Reached, if_pos hstop]
      exact ⟨_, hidle, (List.append_nil _).trans hreads.symm,
        (List.append_nil (readTicks reads)).symm ▸ hticks ▸ List.prefix_rfl, hrun⟩
    · have hgo' := goesOn_append hgo [[]]
      rw [goesOn, if_neg hstop] at hgo'
      refine ⟨_, [], rfl, ⟨rfl, rfl, rfl⟩, (List.append_nil _).symm, ?_⟩
      rw [Reached, if_neg hstop]
      exact ⟨_, hidle, (List.append_nil _).trans hreads.symm,
        hticks.trans (List.append_nil _).symm, hgo'⟩
  · rename_i stream message rest hread
    have hticks := @ticksSince_read k s { s with stream } _ _ _ _ hk hread
    rw [hdelivered] at hticks
    refine ⟨_, [], rfl, ⟨rfl, rfl, rfl⟩, (List.append_nil _).symm, rfl, reads, [],
      p.memory.attach s.tickStore s.bookStore, ?_⟩
    have hbegin := InBatch.begin hsized hgo (length_read_le hread)
    rw [List.map_nil, List.append_nil]
    exact hticks ▸ hbegin

theorem advances_ackMessage (hphase : p.phase = .consuming message rest)
    (h : Reached start k p handled s) :
    Advances start k i p handled s (s.ackMessage i p message rest) := by
  rw [Reached, hphase] at h
  refine ⟨_, [], rfl, ⟨rfl, rfl, rfl⟩, (List.append_nil _).symm, ?_⟩
  rw [List.map_nil, List.append_nil]
  exact h

theorem advances_handleMessage (hphase : p.phase = .handling message rest)
    (h : Reached start k p handled s) :
    Advances start k i p handled s (s.handleMessage i p message rest draws) := by
  rw [Reached, hphase] at h
  obtain ⟨hidle, reads, part, before, hbatch⟩ := h
  rw [handleMessage]
  dsimp only
  split
  · rename_i htrade
    exact ⟨_, [message], rfl, ⟨rfl, rfl, rfl⟩, rfl, hidle, reads, part, before, _, handled,
      hbatch, htrade, rfl, rfl⟩
  · rename_i htrade
    have hstep : runBatch p.config p.maxFills [(message.tick, draws)]
        (p.memory.attach s.tickStore s.bookStore)
          = ((p.memory.attach s.tickStore s.bookStore).trackSequence message.tick, false) := by
      rw [runBatch]
      dsimp only
      rw [if_neg htrade]
      rfl
    have hnext := hbatch.next hstep
    refine ⟨_, [message], rfl, ⟨rfl, rfl, rfl⟩, rfl, ?_⟩
    rw [← hidle] at hnext
    exact hnext

theorem advances_settleMessage (hphase : p.phase = .settling message draws rest)
    (h : Reached start k p handled s) :
    Advances start k i p handled s (s.settleMessage i p message draws rest) := by
  rw [Reached, hphase] at h
  obtain ⟨hidle, reads, part, before, tracked, handled', hbatch, htrade, rfl, hsim⟩ := h
  have hstep := @runBatch_singleton p.config p.maxFills draws htrade message.tick tracked
  rw [← hsim] at hstep
  dsimp only at hstep
  refine ⟨_, [], rfl, ⟨rfl, rfl, rfl⟩, (List.append_nil _).symm, ?_⟩
  rw [List.map_nil, List.append_nil, Reached]
  dsimp only
  split
  · rename_i hstop
    rw [hstop] at hstep
    rw [hidle]
    exact hbatch.stop hstep
  · rename_i hgo
    rw [Bool.not_eq_true] at hgo
    rw [hgo] at hstep
    rw [hidle]
    exact hbatch.next hstep

theorem advances_work (hk : k ≤ s.stream.cursor) (hwork : s.work i p draws = some s')
    (h : Reached start k p handled s) : Advances start k i p handled s s' := by
  rw [work] at hwork
  split at hwork
  · cases hwork
  · split at hwork
    · rename_i hphase
      cases hwork
      exact advances_createConsumer hphase h
    · rename_i hphase
      cases hwork
      exact advances_readMessages hk hphase h
    · rename_i hphase
      cases hwork
      exact advances_ackMessage hphase h
    · rename_i hphase
      cases hwork
      exact advances_handleMessage hphase h
    · rename_i hphase
      cases hwork
      exact advances_settleMessage hphase h
    · cases hwork
    · cases hwork

end Steps

/-! ## Runs in which the process is the only simulator to take a step -/

/-- The action is no write and no step of another simulator than `i`, not even one that only reads.
Publishes, crashes and new processes are left. -/
def Only (i : ℕ) : SimulationAction → Prop
  | .write _ _ => False
  | .work j _ => j = i
  | _ => True

/-- Since `b`, in which it was `p₀`, process `i` has come as far as it stands. -/
def Follows (b : Simulation) (i : ℕ) (p₀ : SimulatorProcess) (s : Simulation) : Prop :=
  b.stream.cursor ≤ s.stream.cursor ∧ ∃ p new, s.simulators[i]? = some p ∧
    (p.config = p₀.config ∧ p.maxFills = p₀.maxFills ∧ p.maxIdleReads = p₀.maxIdleReads) ∧
    s.history.handled = b.history.handled ++ new ∧
    Reached (Memory.attach {} b.tickStore b.bookStore) b.stream.cursor p
      (new.map ConsumedMessage.tick) s

section Follows

variable {b s s' : Simulation} {i : ℕ} {p₀ : SimulatorProcess}

theorem cursor_le_of_effect (he : Effect s s') : s.stream.cursor ≤ s'.stream.cursor := by
  cases he with
  | outside _ _ _ hcursor _ _ _ _ => exact hcursor.ge
  | spawn p _ => exact le_rfl
  | crash i p _ => exact le_rfl
  | move _ i p p' _ _ _ _ _ hcursor _ _ _ _ => exact hcursor.ge
  | read i p p' stream messages _ _ _ hread _ _ =>
    obtain ⟨-, -, -, hcursor, -⟩ := StreamConsumer.read_eq_ok hread
    exact hcursor ▸ Nat.le_add_right _ _
  | ack i p message rest _ _ _ => exact le_rfl
  | handle i p message rest draws _ _ _ =>
    obtain ⟨hstream, -⟩ := handleMessage_spec (s := s) (i := i) (p := p) message rest draws
    rw [hstream]

theorem Follows.step (h : Follows b i p₀ s) {a : SimulationAction} (ha : Only i a)
    (hstep : s.step a = some s') : Follows b i p₀ s' := by
  obtain ⟨hle, p, new, hp, hsame, hhandled, hreached⟩ := h
  refine ⟨hle.trans (cursor_le_of_effect (effect_of_step hstep)), ?_⟩
  cases a with
  | publish tick =>
    cases hstep
    have hticks := @ticksSince_congr b.stream.cursor s
      { s with stream := (StreamPublisher.publish s.stream tick).1 } (List.prefix_append _ _) rfl
    refine ⟨p, new, hp, hsame, hhandled, ?_⟩
    rw [Reached, hticks]
    exact hreached
  | write ticks worker => exact ha.elim
  | spawn consumerName config maxFills maxIdleReads =>
    cases hstep
    refine ⟨p, new, ?_, hsame, hhandled, hreached⟩
    rw [List.getElem?_append_left (List.getElem?_eq_some_iff.mp hp).1, hp]
  | work j draws =>
    obtain rfl : j = i := ha
    obtain ⟨q, hq, hwork⟩ := Option.bind_eq_some_iff.mp hstep
    obtain rfl : p = q := Option.some_inj.mp (hp.symm.trans hq)
    obtain ⟨p', more, hset, hsame', hmore, hreached'⟩ := advances_work hle hwork hreached
    have hlt := (List.getElem?_eq_some_iff.mp hp).1
    refine ⟨p', new ++ more, by rw [hset, List.getElem?_set_self hlt], ?_, ?_, ?_⟩
    · exact ⟨hsame'.1.trans hsame.1, hsame'.2.1.trans hsame.2.1, hsame'.2.2.trans hsame.2.2⟩
    · rw [hmore, hhandled, List.append_assoc]
    · rw [List.map_append]
      exact hreached'
  | crash j =>
    obtain ⟨q, hq, hcrash⟩ := Option.map_eq_some_iff.mp hstep
    cases hcrash
    by_cases hji : j = i
    · subst hji
      obtain rfl : p = q := Option.some_inj.mp (hp.symm.trans hq)
      have hlt := (List.getElem?_eq_some_iff.mp hp).1
      exact ⟨_, new, List.getElem?_set_self hlt, hsame, hhandled, hreached⟩
    · exact ⟨p, new, (List.getElem?_set_ne hji).trans hp, hsame, hhandled, hreached⟩
  | wait ms =>
    cases hstep
    exact ⟨p, new, hp, hsame, hhandled, hreached⟩

/-- A process that has not taken a step follows the run from where it is. -/
theorem follows_spawned (hp : b.simulators[i]? = some p₀) (hstarting : p₀.phase = .starting)
    (hidle : p₀.idle = 0) (hmemory : p₀.memory = {}) : Follows b i p₀ b := by
  refine ⟨le_rfl, p₀, [], hp, ⟨rfl, rfl, rfl⟩, (List.append_nil _).symm, ?_⟩
  rw [Reached, hstarting, hmemory]
  exact ⟨rfl, hidle, rfl, ticksSince_cursor b⟩

end Follows

/-- The process is not between the two halves of a fill. -/
def SettledPhase : SimulatorPhase → Prop
  | .settling _ _ _ => False
  | _ => True

/-- Where it is not, what the process has done is a run. -/
theorem exists_run_of_progress {config : SimulatorConfig} {maxFills maxIdleReads : Option ℤ}
    {start sim : Simulator} {phase : SimulatorPhase} {idle : ℤ} {handled delivered : List Tick}
    (hsettled : SettledPhase phase)
    (h : Progress config maxFills maxIdleReads start phase idle sim handled delivered) :
    ∃ reads, Sized reads ∧ readTicks reads = handled ∧ handled <+: delivered ∧
      Simulator.run config maxFills maxIdleReads reads start = sim := by
  have hbatch : ∀ {message : ConsumedMessage} {rest : List ConsumedMessage},
      (∃ reads part before, InBatch config maxFills maxIdleReads start reads part before sim
        (message :: rest) handled delivered) →
      ∃ reads, Sized reads ∧ readTicks reads = handled ∧ handled <+: delivered ∧
        Simulator.run config maxFills maxIdleReads reads start = sim := by
    rintro message rest ⟨reads, part, before, hbatch⟩
    obtain ⟨idle, hgo⟩ := hbatch.goes
    have hprefix : handled <+: delivered := by
      rw [hbatch.due]
      exact List.prefix_append _ _
    by_cases hne : part = []
    · subst hne
      have hrun := runFrom_append hgo []
      have hsame : before = sim := congrArg Prod.fst hbatch.ran
      rw [List.append_nil, hsame] at hrun
      exact ⟨reads, hbatch.sized, (hbatch.done.trans (List.append_nil _)).symm, hprefix, hrun⟩
    · have hcount := hbatch.count
      exact ⟨reads ++ [part], hbatch.sized.concat (by omega),
        (readTicks_concat _ _).trans hbatch.done.symm, hprefix, run_concat hgo hbatch.ran hne⟩
  cases phase with
  | starting =>
    obtain ⟨rfl, -, rfl, rfl⟩ := h
    exact ⟨[], by simp [Sized], rfl, List.prefix_rfl, rfl⟩
  | looping =>
    obtain ⟨reads, hsized, hhandled, hdelivered, hgo⟩ := h
    have hrun := runFrom_append hgo []
    rw [List.append_nil] at hrun
    exact ⟨reads, hsized, hhandled.symm, hdelivered ▸ List.prefix_rfl, hrun⟩
  | consuming message rest => exact hbatch h.2
  | handling message rest => exact hbatch h.2
  | settling message draws rest => exact hsettled.elim
  | stopped =>
    obtain ⟨reads, hsized, hhandled, hprefix, hrun⟩ := h
    exact ⟨reads, hsized, hhandled.symm, hprefix, hrun⟩
  | raised =>
    obtain ⟨reads, hsized, hhandled, hprefix, hrun⟩ := h
    exact ⟨reads, hsized, hhandled.symm, hprefix, hrun⟩

/-- **A simulator on the stream does what `run` does.**  From the state in which it is started,
while no other simulator takes a step and nothing else writes to the stores, and unless it stands
between the two halves of a fill, a simulator has the memory and has left the stores that `run` has
and leaves on some batches of twenty messages at most.  Their ticks are those it has handled, and
they are the next the stream had for the group, in order and without gaps. -/
theorem refines_run (b : Simulation) (i : ℕ) (p₀ : SimulatorProcess)
    (hp₀ : b.simulators[i]? = some p₀)
    (hnew : p₀.phase = .starting ∧ p₀.idle = 0 ∧ p₀.memory = {})
    (actions : List SimulationAction) (honly : ∀ a ∈ actions, Only i a) (t : Simulation)
    (hrun : run step b actions = some t) (p : SimulatorProcess) (hp : t.simulators[i]? = some p)
    (hsettled : SettledPhase p.phase) :
    ∃ reads new, Sized reads ∧ t.history.handled = b.history.handled ++ new ∧
      readTicks reads = new.map ConsumedMessage.tick ∧
      readTicks reads <+: (t.stream.entries.drop b.stream.cursor).filterMap Entry.data ∧
      p.memory.attach t.tickStore t.bookStore =
        Simulator.run p₀.config p₀.maxFills p₀.maxIdleReads reads
          { tickStore := b.tickStore, bookStore := b.bookStore } := by
  have hfollows : Follows b i p₀ t :=
    Along.induction (I := Follows b i p₀) (P := fun _ a ↦ Only i a)
      (fun s a s' h ha hstep ↦ h.step ha hstep) (follows_spawned hp₀ hnew.1 hnew.2.1 hnew.2.2)
      (Along.of_forall honly) hrun
  obtain ⟨-, q, new, hq, ⟨hconfig, hfills, hidle⟩, hhandled, hreached⟩ := hfollows
  obtain rfl : p = q := Option.some_inj.mp (hp.symm.trans hq)
  rw [Reached, hconfig, hfills, hidle] at hreached
  obtain ⟨reads, hsized, hticks, hprefix, hstate⟩ := exists_run_of_progress hsettled hreached
  exact ⟨reads, new, hsized, hhandled, hticks,
    hticks ▸ hprefix.trans (prefix_ticksSince _ _), hstate.symm⟩

/-! ### The simulator that makes one fill -/

/-- Before its first step, and after it has returned. -/
def oneFillStart : Simulation :=
  (run step (initial (Pool.initial []).stream [] {}) (oneFillRun.take 3)).get (by decide +kernel)

def oneFillDone : Simulation :=
  (run step oneFillStart (List.replicate 5 (.work 0 Simulator.driftDraws))).get
    (by decide +kernel)

/-- The two ticks are the next of the stream, and the book is the one of a run on a first part of
them. -/
theorem refines_run_oneFill :
    ∃ reads, readTicks reads <+: [btcTick 1 0, btcTick 1 0] ∧
      oneFillDone.bookStore = (Simulator.run {} (some 1) none reads
        { tickStore := [], bookStore := {} }).bookStore := by
  obtain ⟨reads, new, -, -, -, hprefix, hstate⟩ := refines_run oneFillStart 0
    (oneFillStart.simulators.get ⟨0, by decide +kernel⟩)
    (List.getElem?_eq_some_iff.mpr ⟨by decide +kernel, rfl⟩) ⟨rfl, rfl, rfl⟩
    (List.replicate 5 (.work 0 Simulator.driftDraws))
    (fun a ha ↦ by rw [List.eq_of_mem_replicate ha]; rfl) oneFillDone (Option.some_get _).symm
    (oneFillDone.simulators.get ⟨0, by decide +kernel⟩)
    (List.getElem?_eq_some_iff.mpr ⟨by decide +kernel, rfl⟩)
    (by rw [show (oneFillDone.simulators.get ⟨0, by decide +kernel⟩).phase = .stopped by
      decide +kernel]; trivial)
  have hticks : (oneFillDone.stream.entries.drop oneFillStart.stream.cursor).filterMap Entry.data
      = [btcTick 1 0, btcTick 1 0] := by decide +kernel
  rw [hticks] at hprefix
  exact ⟨reads, hprefix, congrArg Simulator.bookStore hstate⟩

end Simulation

end PostTrade
