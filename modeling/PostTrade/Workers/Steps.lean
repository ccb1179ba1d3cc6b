import PostTrade.Workers.Worker

/-!
# What a step of the pool can do

`Effect` lists the steps of the machine by what they touch, and `effect_of_step` says that there
are no others.  Every invariant of the pool is a case analysis over it.

`Sound` is the invariant that holds whatever happens, claims included: what is in the hands of a
process was handed to it, what is acknowledged was written before, and an entry once delivered is
pending until it is acknowledged.
-/

set_option autoImplicit false

namespace PostTrade

namespace Pool

open ConsumerGroup Machine

/-! ## The steps by what they touch -/

/-- The effect of a step. -/
inductive Effect (s : Pool) : Action → Pool → Prop
  | publish (tick : Tick) : Effect s (.publish tick) (s.publish tick)
  | spawn (consumerName : Str) (role : Role) :
    Effect s (.spawn consumerName role)
      { s with processes := s.processes ++ [{ consumerName, role }] }
  | wait (ms : ℕ) : Effect s (.wait ms) { s with now := s.now + ms }
  /-- A process moves on with the same messages in hand, and no entry changes its place. -/
  | quiet (a : Action) (i : ℕ) (p p' : Process) (stream : TickStream)
    (hp : s.processes[i]? = some p) (hlive : ¬ p.phase.Ended)
    (hname : p'.consumerName = p.consumerName) (hrole : p'.role = p.role)
    (hwrite : p'.phase.toWrite = p.phase.toWrite) (hack : p'.phase.toAck = p.phase.toAck)
    (hentries : stream.entries = s.stream.entries) (hcursor : stream.cursor = s.stream.cursor)
    (hpel : stream.pel = s.stream.pel)
    (hcreated : s.stream.created = true → stream.created = true) :
    Effect s a ({ s with stream }.setProcess i p')
  /-- A process loses what it has in hand. -/
  | crash (i : ℕ) (p : Process) (hp : s.processes[i]? = some p) (hlive : ¬ p.phase.Ended) :
    Effect s (.crash i) (s.setProcess i { p with phase := .crashed })
  /-- A process with empty hands is delivered new entries, and keeps what its limit allows. -/
  | read (i : ℕ) (p p' : Process) (args : RunWorkerArgs) (stream : TickStream)
    (messages : List ConsumedMessage) (hp : s.processes[i]? = some p)
    (hargs : p.role = .worker args) (hlooping : p.phase = .looping) (hrunning : p.running = true)
    (hread : StreamConsumer.read s.stream p.consumerName args.readBatchSize s.now
      = .ok (stream, messages))
    (hname : p'.consumerName = p.consumerName) (hrole : p'.role = p.role)
    (hwrite : p'.phase.toWrite = limitBatch args.maxMessages p.processed messages)
    (hack : p'.phase.toAck = []) :
    Effect s (.work i)
      ({ s with
          stream
          history.delivered :=
            s.history.delivered ++ messages.map fun m ↦ (m, p.consumerName) }.setProcess i p')
  /-- A process with empty hands is handed pending entries. -/
  | claim (i : ℕ) (p p' : Process) (minIdleMs count : ℤ) (stream : TickStream)
    (messages : List ConsumedMessage) (hp : s.processes[i]? = some p)
    (hlooping : p.phase = .looping)
    (hclaim : StreamConsumer.claimStale s.stream p.consumerName minIdleMs count s.now
      = .ok (stream, messages))
    (hname : p'.consumerName = p.consumerName) (hrole : p'.role = p.role)
    (hwrite : p'.phase.toWrite = messages)
    (hack : p'.phase.toAck = []) :
    Effect s (.claim i minIdleMs count)
      ({ s with
          stream
          history.claimed :=
            s.history.claimed ++ messages.map fun m ↦ (m, p.consumerName) }.setProcess i p')
  | write (i : ℕ) (p : Process) (batch : List ConsumedMessage) (hp : s.processes[i]? = some p)
    (hphase : p.phase = .writing batch) : Effect s (.work i) (s.writeBatch i p batch)
  | ack (i : ℕ) (p : Process) (batch : List ConsumedMessage) (hp : s.processes[i]? = some p)
    (hphase : p.phase = .acking batch) : Effect s (.work i) (s.ackBatch i p batch)

@[simp] theorem limitBatch_nil (maxMessages : Option ℤ) (processed : ℕ) :
    limitBatch maxMessages processed [] = [] :=
  List.sublist_nil.mp (limitBatch_sublist maxMessages processed [])

/-- A process that moves without touching the stream. -/
theorem Effect.quiet_setProcess {s : Pool} (a : Action) (i : ℕ) (p p' : Process)
    (hp : s.processes[i]? = some p) (hlive : ¬ p.phase.Ended)
    (hname : p'.consumerName = p.consumerName) (hrole : p'.role = p.role)
    (hwrite : p'.phase.toWrite = p.phase.toWrite) (hack : p'.phase.toAck = p.phase.toAck) :
    Effect s a (s.setProcess i p') :=
  .quiet a i p p' s.stream hp hlive hname hrole hwrite hack rfl rfl rfl id

theorem effect_readMessages {s : Pool} {i : ℕ} {p : Process} {args : RunWorkerArgs}
    (hp : s.processes[i]? = some p) (hrole : p.role = .worker args)
    (hlooping : p.phase = .looping) : Effect s (.work i) (s.readMessages i p args) := by
  have hidle : p.phase.toWrite = [] ∧ p.phase.toAck = [] := by
    rw [hlooping]
    exact ⟨rfl, rfl⟩
  have hlive : ¬ p.phase.Ended := by
    rw [hlooping]
    exact id
  rw [readMessages]
  split
  · exact .quiet_setProcess _ i p _ hp hlive rfl rfl hidle.1.symm hidle.2.symm
  · rename_i hrunning
    split
    · exact .quiet_setProcess _ i p _ hp hlive rfl rfl hidle.1.symm hidle.2.symm
    · rename_i stream messages hread
      split
      · rename_i hempty
        subst hempty
        have := Effect.read i p
          { p with
            idleReads := p.idleReads + 1
            phase := if limitReached args.maxIdleReads (p.idleReads + 1) then .stopped
              else .looping }
          args stream [] hp hrole hlooping (by simpa using hrunning) hread rfl rfl
          (by dsimp only; rw [limitBatch_nil]; split <;> rfl) (by dsimp only; split <;> rfl)
        simpa using this
      · exact .read i p _ args stream messages hp hrole hlooping (by simpa using hrunning) hread rfl
          rfl rfl rfl

theorem effect_claimMessages {s : Pool} {i : ℕ} {p : Process} {minIdleMs count : ℤ}
    (hp : s.processes[i]? = some p) (hlooping : p.phase = .looping) :
    Effect s (.claim i minIdleMs count) (s.claimMessages i p minIdleMs count) := by
  rw [claimMessages]
  split
  · exact .quiet_setProcess _ i p _ hp (by rw [hlooping]; exact id) rfl rfl
      (by rw [hlooping]; rfl) (by rw [hlooping]; rfl)
  · rename_i stream messages hclaim
    refine .claim i p _ minIdleMs count stream messages hp hlooping hclaim rfl rfl ?_ ?_
    · dsimp only
      split
      · rename_i hempty
        exact hempty.symm
      · rfl
    · dsimp only
      split
      · rfl
      · rfl

theorem effect_work {s s' : Pool} {i : ℕ} {p : Process} (hp : s.processes[i]? = some p)
    (h : s.work i p = some s') : Effect s (.work i) s' := by
  rw [work] at h
  split at h
  · rename_i hphase
    cases h
    exact .quiet _ i p _ _ hp (by rw [hphase]; exact id) rfl rfl (by rw [hphase]; rfl)
      (by rw [hphase]; rfl)
      (GroupStream.xgroupCreate_entries _) (GroupStream.xgroupCreate_cursor _)
      (GroupStream.xgroupCreate_pel _) (fun _ ↦ GroupStream.xgroupCreate_created _)
  · rename_i args hphase hrole
    cases h
    exact effect_readMessages hp hrole hphase
  · rename_i role batch hphase
    cases h
    exact .write i p batch hp hphase
  · rename_i role batch hphase
    cases h
    exact .ack i p batch hp hphase
  · rename_i batch args hphase hrole
    cases h
    have hlive : ¬ p.phase.Ended := by
      rw [hphase]
      exact id
    rw [report]
    split
    · exact .quiet_setProcess _ i p _ hp hlive rfl rfl (by rw [hphase]; rfl) (by rw [hphase]; rfl)
    · exact .quiet_setProcess _ i p _ hp hlive rfl rfl (by rw [hphase]; rfl) (by rw [hphase]; rfl)
  · cases h

/-- **Every step is one of these.** -/
theorem effect_of_step {s s' : Pool} {a : Action} (h : s.step a = some s') : Effect s a s' := by
  cases a with
  | publish tick =>
    cases h
    exact .publish tick
  | spawn consumerName role =>
    cases h
    exact .spawn consumerName role
  | work i =>
    obtain ⟨p, hp, hwork⟩ := Option.bind_eq_some_iff.mp h
    exact effect_work hp hwork
  | claim i minIdleMs count =>
    obtain ⟨p, hp, hclaim⟩ := Option.bind_eq_some_iff.mp h
    split at hclaim
    · rename_i hrecovery
      cases hclaim
      exact effect_claimMessages hp hrecovery.2
    · cases hclaim
  | signal i =>
    obtain ⟨p, hp, hsignal⟩ := Option.bind_eq_some_iff.mp h
    split at hsignal
    · cases hsignal
    · rename_i hlive
      cases hsignal
      exact .quiet_setProcess _ i p _ hp (fun h ↦ hlive (Or.inr h)) rfl rfl rfl rfl
  | crash i =>
    obtain ⟨p, hp, hcrash⟩ := Option.bind_eq_some_iff.mp h
    split at hcrash
    · cases hcrash
    · rename_i hlive
      cases hcrash
      exact .crash i p hp hlive
  | wait ms =>
    cases h
    exact .wait ms

/-- Once the group exists it goes on existing. -/
theorem Effect.created {s s' : Pool} {a : Action} (he : Effect s a s')
    (h : s.stream.created = true) : s'.stream.created = true := by
  cases he with
  | quiet a i p p' stream _ _ _ _ _ _ _ _ _ hcreated => exact hcreated h
  | read i p p' args stream messages _ _ _ _ hread => exact StreamConsumer.created_read hread
  | claim i p p' minIdleMs count stream messages _ _ hclaim =>
    exact StreamConsumer.created_claimStale hclaim
  | ack i p batch => exact (StreamConsumer.ackBatch_created _ _).trans h
  | _ => exact h

/-- The group exists, or no process has come to use it. -/
def GroupReady (s : Pool) : Prop :=
  s.stream.created = true ∨ ∀ p ∈ s.processes, p.phase = .starting ∨ p.phase = .crashed

theorem groupReady_step {s s' : Pool} {a : Action} (h : s.step a = some s') (hs : GroupReady s) :
    GroupReady s' := by
  rcases hs with hcreated | hidle
  · exact Or.inl ((effect_of_step h).created hcreated)
  · have hat : ∀ {i : ℕ} {p : Process}, s.processes[i]? = some p →
        p.phase = .starting ∨ p.phase = .crashed := fun hp ↦ hidle _ (List.mem_of_getElem? hp)
    cases a with
    | publish tick =>
      cases h
      exact Or.inr hidle
    | wait ms =>
      cases h
      exact Or.inr hidle
    | spawn consumerName role =>
      cases h
      refine Or.inr fun p hp ↦ ?_
      rcases List.mem_append.mp hp with hp | hp
      · exact hidle p hp
      · rw [List.mem_singleton.mp hp]
        exact Or.inl rfl
    | work i =>
      obtain ⟨p, hp, hwork⟩ := Option.bind_eq_some_iff.mp h
      rcases hat hp with hphase | hphase
      · rw [work, hphase] at hwork
        cases hwork
        exact Or.inl (GroupStream.xgroupCreate_created _)
      · simp [work, hphase] at hwork
    | claim i minIdleMs count =>
      obtain ⟨p, hp, hclaim⟩ := Option.bind_eq_some_iff.mp h
      rcases hat hp with hphase | hphase
      · simp [hphase] at hclaim
      · simp [hphase] at hclaim
    | signal i =>
      obtain ⟨p, hp, hsignal⟩ := Option.bind_eq_some_iff.mp h
      rcases hat hp with hphase | hphase
      · simp [hphase] at hsignal
      · simp [hphase, Phase.Ended] at hsignal
    | crash i =>
      obtain ⟨p, hp, hcrash⟩ := Option.bind_eq_some_iff.mp h
      split at hcrash
      · cases hcrash
      · cases hcrash
        refine Or.inr fun q hq ↦ ?_
        rcases mem_of_mem_set hq with hq | rfl
        · exact hidle q hq
        · exact Or.inr rfl

/-! ## What holds whatever happens -/

/-- The ids of the messages. -/
def ids (handled : List Handled) : List ℕ := handled.map fun h ↦ h.1.messageId

@[simp] theorem ids_nil : ids [] = [] := rfl

@[simp] theorem ids_append (g h : List Handled) : ids (g ++ h) = ids g ++ ids h :=
  List.map_append

@[simp] theorem ids_map (messages : List ConsumedMessage) (consumerName : Str) :
    ids (messages.map fun m ↦ (m, consumerName)) = messages.map ConsumedMessage.messageId := by
  rw [ids, List.map_map]
  rfl

/-- The row a write leaves in the store. -/
def rowOf (h : Handled) : TickRow := TickRow.ofTick h.1.tick (some h.2)

/-- What holds in every reachable state. -/
structure Sound (store₀ : TickStore) (s : Pool) : Prop where
  wellFormed : s.stream.WellFormed
  /-- `XREADGROUP` delivers every entry once, in the order of the stream. -/
  delivered : ids s.history.delivered = List.range s.stream.cursor
  claimed : ∀ h ∈ s.history.claimed, h.1.messageId < s.stream.cursor
  /-- A message carries the tick of its entry. -/
  genuine : ∀ h ∈ s.history.delivered ++ s.history.claimed,
    s.stream.entries[h.1.messageId]? = some ⟨some h.1.tick⟩
  toWrite : ∀ p ∈ s.processes, ∀ m ∈ p.phase.toWrite,
    (m, p.consumerName) ∈ s.history.delivered ++ s.history.claimed
  toAck : ∀ p ∈ s.processes, ∀ m ∈ p.phase.toAck, (m, p.consumerName) ∈ s.history.written
  written : ∀ h ∈ s.history.written, h ∈ s.history.delivered ++ s.history.claimed
  acked : ∀ k ∈ s.history.acked, k ∈ ids s.history.written ∧ k ∉ s.stream.pelIds
  /-- Once delivered, an entry is pending until it is acknowledged. -/
  pending : ∀ k < s.stream.cursor, k ∈ s.stream.pelIds ∨ k ∈ s.history.acked
  /-- The PEL names a consumer the entry was handed to. -/
  owner : ∀ r ∈ s.stream.pel, ∃ m : ConsumedMessage, m.messageId = r.id ∧
    (m, r.consumer) ∈ s.history.delivered ++ s.history.claimed
  store : s.store = store₀ ++ s.history.written.map rowOf

theorem sound_initial (store₀ : TickStore) : Sound store₀ (initial store₀) where
  wellFormed := by simp [TickStream.WellFormed, initial]
  delivered := rfl
  claimed := by simp [initial]
  genuine := by simp [initial]
  toWrite := by simp [initial]
  toAck := by simp [initial]
  written := by simp [initial]
  acked := by simp [initial]
  pending := by simp [initial]
  owner := by simp [initial]
  store := by simp [initial]

section

variable {store₀ : TickStore} {s s' : Pool} {a : Action}

/-- What was handed out was delivered. -/
theorem Sound.handed_lt (hs : Sound store₀ s) {h : Handled}
    (hh : h ∈ s.history.delivered ++ s.history.claimed) : h.1.messageId < s.stream.cursor := by
  rcases List.mem_append.mp hh with hh | hh
  · rw [← List.mem_range, ← hs.delivered]
    exact List.mem_map_of_mem hh
  · exact hs.claimed h hh

/-- The ids of the messages a read returns are the next ones of the stream. -/
theorem Sound.map_messageId_read (hs : Sound store₀ s) (count : ℕ) :
    (parseEntries (s.stream.nextBatch count)).map ConsumedMessage.messageId
      = (s.stream.nextBatch count).map Prod.snd := by
  refine map_messageId_parseEntries ?_
  intro e he
  exact hs.wellFormed _ (List.mem_of_getElem? (GroupStream.getElem?_of_mem_nextBatch he))

section

variable {consumerName : Str} {count : ℤ} {stream : TickStream} {messages : List ConsumedMessage}
  (hs : Sound store₀ s)
  (hread : StreamConsumer.read s.stream consumerName count s.now = .ok (stream, messages))

include hs hread

/-- A read returns the entries between the old and the new place of the group. -/
theorem Sound.mem_read {k : ℕ} : k ∈ messages.map ConsumedMessage.messageId ↔
    s.stream.cursor ≤ k ∧ k < stream.cursor := by
  obtain ⟨-, rfl, -, hcursor, -⟩ := StreamConsumer.read_eq_ok hread
  rw [hs.map_messageId_read, GroupStream.mem_map_snd_nextBatch, hcursor]

/-- A read returns an entry once. -/
theorem Sound.nodup_read : (messages.map ConsumedMessage.messageId).Nodup := by
  obtain ⟨-, rfl, -⟩ := StreamConsumer.read_eq_ok hread
  rw [hs.map_messageId_read, GroupStream.map_snd_nextBatch]
  exact List.nodup_range'

end

theorem wellFormed_step (hs : Sound store₀ s) (he : Effect s a s') : s'.stream.WellFormed := by
  cases he with
  | publish tick =>
    intro e he
    rcases List.mem_append.mp he with he | he
    · exact hs.wellFormed e he
    · rw [List.mem_singleton.mp he]
      simp
  | quiet a i p p' stream _ _ _ _ _ _ hentries =>
    intro e he
    exact hs.wellFormed e (hentries ▸ he)
  | read i p p' args stream messages _ _ _ _ hread =>
    intro e he
    exact hs.wellFormed e ((StreamConsumer.read_eq_ok hread).2.2.1 ▸ he)
  | claim i p p' minIdleMs count stream messages _ _ hclaim =>
    have hentries := (StreamConsumer.claimStale_eq_ok hclaim).1
    intro e he
    exact hs.wellFormed e (hentries ▸ he)
  | ack i p batch =>
    intro e he
    exact hs.wellFormed e (StreamConsumer.ackBatch_entries s.stream _ ▸ he)
  | _ => exact hs.wellFormed

theorem delivered_step (hs : Sound store₀ s) (he : Effect s a s') :
    ids s'.history.delivered = List.range s'.stream.cursor := by
  have h := hs.delivered
  cases he with
  | quiet a i p p' stream _ _ _ _ _ _ _ hcursor => exact h.trans (congrArg _ hcursor.symm)
  | read i p p' args stream messages _ _ _ _ hread =>
    obtain ⟨-, rfl, -, hcursor, -⟩ := StreamConsumer.read_eq_ok hread
    show ids (_ ++ _) = List.range stream.cursor
    rw [ids_append, h, ids_map, hs.map_messageId_read, hcursor,
      GroupStream.range_append_nextBatch]
  | claim i p p' minIdleMs count stream messages _ _ hclaim =>
    have hcursor := (StreamConsumer.claimStale_eq_ok hclaim).2.1
    exact h.trans (congrArg _ hcursor.symm)
  | ack i p batch => exact h.trans (congrArg _ (StreamConsumer.ackBatch_cursor _ _).symm)
  | _ => exact h

theorem cursor_le_step (he : Effect s a s') : s.stream.cursor ≤ s'.stream.cursor := by
  cases he with
  | quiet a i p p' stream _ _ _ _ _ _ _ hcursor => exact hcursor.ge
  | read i p p' args stream messages _ _ _ _ hread =>
    obtain ⟨-, -, -, hcursor, -⟩ := StreamConsumer.read_eq_ok hread
    exact (Nat.le_add_right _ _).trans hcursor.ge
  | claim i p p' minIdleMs count stream messages _ _ hclaim =>
    have hcursor := (StreamConsumer.claimStale_eq_ok hclaim).2.1
    exact hcursor.ge
  | ack i p batch => exact (StreamConsumer.ackBatch_cursor _ _).ge
  | _ => exact le_rfl

theorem claimed_step (hs : Sound store₀ s) (he : Effect s a s') :
    ∀ h ∈ s'.history.claimed, h.1.messageId < s'.stream.cursor := by
  have hle := cursor_le_step he
  intro h hh
  cases he with
  | claim i p p' minIdleMs count stream messages _ _ hclaim =>
    rcases List.mem_append.mp hh with hh | hh
    · exact (hs.claimed h hh).trans_le hle
    · obtain ⟨-, -, -, -, hids, -⟩ := StreamConsumer.claimStale_eq_ok hclaim
      obtain ⟨m, hm, rfl⟩ := List.mem_map.mp hh
      have hstale := hids hs.wellFormed ▸ List.mem_map_of_mem (f := ConsumedMessage.messageId) hm
      exact (GroupStream.lt_cursor_of_mem_pelIds
        ((s.stream.stale_sublist_pelIds _ _ _).subset hstale)).trans_le hle
  | _ => exact (hs.claimed h hh).trans_le hle

/-- An entry of the stream stays where it is. -/
theorem getElem?_entries_step (he : Effect s a s') {k : ℕ} {e : Entry}
    (h : s.stream.entries[k]? = some e) : s'.stream.entries[k]? = some e := by
  cases he with
  | publish tick =>
    show (s.stream.entries ++ [_])[k]? = some e
    rw [List.getElem?_append_left (List.getElem?_eq_some_iff.mp h).1]
    exact h
  | quiet a i p p' stream _ _ _ _ _ _ hentries => exact (congrArg (·[k]?) hentries).trans h
  | read i p p' args stream messages _ _ _ _ hread =>
    exact (congrArg (·[k]?) (StreamConsumer.read_eq_ok hread).2.2.1).trans h
  | claim i p p' minIdleMs count stream messages _ _ hclaim =>
    have hentries := (StreamConsumer.claimStale_eq_ok hclaim).1
    exact (congrArg (·[k]?) hentries).trans h
  | ack i p batch => exact (congrArg (·[k]?) (StreamConsumer.ackBatch_entries _ _)).trans h
  | _ => exact h

/-- What was handed out before a step was handed out after it. -/
theorem handed_step (he : Effect s a s') {h : Handled}
    (hh : h ∈ s.history.delivered ++ s.history.claimed) :
    h ∈ s'.history.delivered ++ s'.history.claimed := by
  rw [List.mem_append] at hh ⊢
  cases he with
  | read => exact hh.imp_left (List.mem_append_left _)
  | claim => exact hh.imp_right (List.mem_append_left _)
  | _ => exact hh

theorem genuine_step (hs : Sound store₀ s) (he : Effect s a s') :
    ∀ h ∈ s'.history.delivered ++ s'.history.claimed,
      s'.stream.entries[h.1.messageId]? = some ⟨some h.1.tick⟩ := by
  have hold : ∀ h ∈ s.history.delivered ++ s.history.claimed,
      s'.stream.entries[h.1.messageId]? = some ⟨some h.1.tick⟩ := fun h hh ↦
    getElem?_entries_step he (hs.genuine h hh)
  intro h hh
  cases he with
  | read i p p' args stream messages _ _ _ _ hread =>
    have hnew : ∀ m ∈ messages, stream.entries[m.messageId]? = some ⟨some m.tick⟩ := by
      obtain ⟨-, rfl, hentries, -⟩ := StreamConsumer.read_eq_ok hread
      intro m hm
      rw [hentries]
      exact GroupStream.getElem?_of_mem_nextBatch (mem_parseEntries.mp hm)
    rcases List.mem_append.mp hh with hh | hh
    · rcases List.mem_append.mp hh with hh | hh
      · exact hold h (List.mem_append_left _ hh)
      · obtain ⟨m, hm, rfl⟩ := List.mem_map.mp hh
        exact hnew m hm
    · exact hold h (List.mem_append_right _ hh)
  | claim i p p' minIdleMs count stream messages _ _ hclaim =>
    have hnew : ∀ m ∈ messages, stream.entries[m.messageId]? = some ⟨some m.tick⟩ := by
      obtain ⟨hentries, -, -, -, -, hmessages⟩ := StreamConsumer.claimStale_eq_ok hclaim
      intro m hm
      rw [hentries]
      exact hmessages m hm
    rcases List.mem_append.mp hh with hh | hh
    · exact hold h (List.mem_append_left _ hh)
    · rcases List.mem_append.mp hh with hh | hh
      · exact hold h (List.mem_append_right _ hh)
      · obtain ⟨m, hm, rfl⟩ := List.mem_map.mp hh
        exact hnew m hm
  | _ => exact hold h hh

/-- What a process has in hand after a step, it had before or got from the step. -/
theorem Effect.hands (he : Effect s a s') {q : Process} (hq : q ∈ s'.processes) :
    (∃ p ∈ s.processes, q.consumerName = p.consumerName ∧ q.phase.toWrite = p.phase.toWrite ∧
      q.phase.toAck = p.phase.toAck) ∨
    (∀ m ∈ q.phase.toWrite,
        (m, q.consumerName) ∈ s'.history.delivered ++ s'.history.claimed) ∧
      ∀ m ∈ q.phase.toAck, (m, q.consumerName) ∈ s'.history.written := by
  have hempty : ∀ {R : ConsumedMessage → Prop} {batch : List ConsumedMessage}, batch = [] →
      ∀ m ∈ batch, R m := fun h m hm ↦ absurd (h ▸ hm) List.not_mem_nil
  have hold : q ∈ s.processes → ∃ p ∈ s.processes, q.consumerName = p.consumerName ∧
      q.phase.toWrite = p.phase.toWrite ∧ q.phase.toAck = p.phase.toAck :=
    fun hq ↦ ⟨q, hq, rfl, rfl, rfl⟩
  cases he with
  | publish => exact .inl (hold hq)
  | wait => exact .inl (hold hq)
  | spawn consumerName role =>
    refine (List.mem_append.mp hq).imp hold fun hq ↦ ?_
    rw [List.mem_singleton.mp hq]
    exact ⟨hempty rfl, hempty rfl⟩
  | quiet a i p p' stream hp _ hname _ hwrite hack =>
    refine .inl ((mem_of_mem_set hq).elim hold ?_)
    rintro rfl
    exact ⟨p, List.mem_of_getElem? hp, hname, hwrite, hack⟩
  | crash i p =>
    refine (mem_of_mem_set hq).imp hold ?_
    rintro rfl
    exact ⟨hempty rfl, hempty rfl⟩
  | read i p p' args stream messages _ _ _ _ _ hname _ hwrite hack =>
    refine (mem_of_mem_set hq).imp hold ?_
    rintro rfl
    refine ⟨fun m hm ↦ ?_, hempty hack⟩
    rw [hname]
    refine List.mem_append_left _ (List.mem_append_right _ (List.mem_map_of_mem ?_))
    exact (limitBatch_sublist _ _ _).subset (hwrite ▸ hm)
  | claim i p p' minIdleMs count stream messages _ _ _ hname _ hwrite hack =>
    refine (mem_of_mem_set hq).imp hold ?_
    rintro rfl
    refine ⟨fun m hm ↦ ?_, hempty hack⟩
    rw [hname]
    exact List.mem_append_right _ (List.mem_append_right _ (List.mem_map_of_mem (hwrite ▸ hm)))
  | write i p batch =>
    refine (mem_of_mem_set hq).imp hold ?_
    rintro rfl
    exact ⟨hempty rfl, fun m hm ↦ List.mem_append_right _ (List.mem_map_of_mem hm)⟩
  | ack i p batch =>
    refine (mem_of_mem_set hq).imp hold ?_
    rintro rfl
    dsimp only
    split
    · exact ⟨hempty rfl, hempty rfl⟩
    · exact ⟨hempty rfl, hempty rfl⟩

theorem toWrite_step (hs : Sound store₀ s) (he : Effect s a s') :
    ∀ p ∈ s'.processes, ∀ m ∈ p.phase.toWrite,
      (m, p.consumerName) ∈ s'.history.delivered ++ s'.history.claimed := by
  intro q hq m hm
  rcases he.hands hq with ⟨p, hp, hname, hwrite, -⟩ | ⟨hgiven, -⟩
  · rw [hname]
    exact handed_step he (hs.toWrite p hp m (hwrite ▸ hm))
  · exact hgiven m hm

/-- What was written before a step was written after it. -/
theorem written_mono (he : Effect s a s') {h : Handled} (hh : h ∈ s.history.written) :
    h ∈ s'.history.written := by
  cases he with
  | write => exact List.mem_append_left _ hh
  | _ => exact hh

theorem toAck_step (hs : Sound store₀ s) (he : Effect s a s') :
    ∀ p ∈ s'.processes, ∀ m ∈ p.phase.toAck, (m, p.consumerName) ∈ s'.history.written := by
  intro q hq m hm
  rcases he.hands hq with ⟨p, hp, hname, -, hack⟩ | ⟨-, hgiven⟩
  · rw [hname]
    exact written_mono he (hs.toAck p hp m (hack ▸ hm))
  · exact hgiven m hm

theorem written_step (hs : Sound store₀ s) (he : Effect s a s') :
    ∀ h ∈ s'.history.written, h ∈ s'.history.delivered ++ s'.history.claimed := by
  intro h hh
  have hold : h ∈ s.history.written → h ∈ s'.history.delivered ++ s'.history.claimed :=
    fun hh ↦ handed_step he (hs.written h hh)
  cases he with
  | write i p batch hp hphase =>
    rcases List.mem_append.mp hh with hh | hh
    · exact hold hh
    · obtain ⟨m, hm, rfl⟩ := List.mem_map.mp hh
      refine hs.toWrite p (List.mem_of_getElem? hp) m ?_
      rw [hphase]
      exact hm
  | _ => exact hold hh

/-- The batch about to be acknowledged was written. -/
theorem Sound.acking_written (hs : Sound store₀ s) {i : ℕ} {p : Process}
    {batch : List ConsumedMessage} (hp : s.processes[i]? = some p)
    (hphase : p.phase = .acking batch) {k : ℕ}
    (hk : k ∈ batch.map ConsumedMessage.messageId) : k ∈ ids s.history.written := by
  obtain ⟨m, hm, rfl⟩ := List.mem_map.mp hk
  refine List.mem_map.mpr ⟨_, hs.toAck p (List.mem_of_getElem? hp) m ?_, rfl⟩
  rw [hphase]
  exact hm

theorem acked_step (hs : Sound store₀ s) (he : Effect s a s') :
    ∀ k ∈ s'.history.acked, k ∈ ids s'.history.written ∧ k ∉ s'.stream.pelIds := by
  have hold : ∀ k ∈ s.history.acked, k ∈ ids s'.history.written := fun k hk ↦ by
    obtain ⟨h, hh, rfl⟩ := List.mem_map.mp (hs.acked k hk).1
    exact List.mem_map_of_mem (written_mono he hh)
  intro k hk
  cases he with
  | quiet a i p p' stream _ _ _ _ _ _ _ _ hpel =>
    refine ⟨hold k hk, ?_⟩
    show k ∉ stream.pel.map _
    rw [hpel]
    exact (hs.acked k hk).2
  | read i p p' args stream messages _ _ _ _ hread =>
    obtain ⟨hwritten, hnot⟩ := hs.acked k hk
    refine ⟨hwritten, fun hmem ↦ ?_⟩
    rcases (StreamConsumer.mem_pelIds_read hread).mp hmem with hmem | hmem
    · exact hnot hmem
    · -- a new id is not below the cursor, where every written one is
      obtain ⟨h, hh, rfl⟩ := List.mem_map.mp hwritten
      exact absurd (hs.handed_lt (hs.written h hh)) (not_lt.mpr hmem.1)
  | claim i p p' minIdleMs count stream messages _ _ hclaim =>
    have hpel := (StreamConsumer.claimStale_eq_ok hclaim).2.2.1
    exact ⟨hold k hk, hpel ▸ (hs.acked k hk).2⟩
  | write => exact ⟨hold k hk, (hs.acked k hk).2⟩
  | ack i p batch hp hphase =>
    show _ ∧ k ∉ (StreamConsumer.ackBatch _ _).pelIds
    rw [StreamConsumer.mem_pelIds_ackBatch, not_and, not_not]
    rcases List.mem_append.mp hk with hk | hk
    · exact ⟨hold k hk, fun hmem ↦ absurd hmem (hs.acked k hk).2⟩
    · exact ⟨hs.acking_written hp hphase hk, fun _ ↦ hk⟩
  | _ => exact hs.acked k hk

theorem pending_step (hs : Sound store₀ s) (he : Effect s a s') :
    ∀ k < s'.stream.cursor, k ∈ s'.stream.pelIds ∨ k ∈ s'.history.acked := by
  intro k hk
  cases he with
  | quiet a i p p' stream _ _ _ _ _ _ _ hcursor hpel =>
    show k ∈ stream.pel.map _ ∨ _
    rw [hpel]
    exact hs.pending k (hcursor ▸ hk)
  | read i p p' args stream messages _ _ _ _ hread =>
    have hmem := StreamConsumer.mem_pelIds_read hread (k := k)
    rcases lt_or_ge k s.stream.cursor with hlt | hge
    · exact (hs.pending k hlt).imp_left fun h ↦ hmem.mpr (Or.inl h)
    · exact Or.inl (hmem.mpr (Or.inr ⟨hge, hk⟩))
  | claim i p p' minIdleMs count stream messages _ _ hclaim =>
    obtain ⟨-, hcursor, hpel, -⟩ := StreamConsumer.claimStale_eq_ok hclaim
    exact (hs.pending k (hcursor ▸ hk)).imp_left fun h ↦ hpel ▸ h
  | ack i p batch =>
    replace hk : k < s.stream.cursor := (StreamConsumer.ackBatch_cursor _ _) ▸ hk
    show k ∈ (StreamConsumer.ackBatch _ _).pelIds ∨ k ∈ _ ++ _
    rw [StreamConsumer.mem_pelIds_ackBatch, List.mem_append]
    by_cases hbatch : k ∈ batch.map ConsumedMessage.messageId
    · exact Or.inr (Or.inr hbatch)
    · exact (hs.pending k hk).imp (fun h ↦ ⟨h, hbatch⟩) Or.inl
  | _ => exact hs.pending k hk

theorem owner_step (hs : Sound store₀ s) (he : Effect s a s') :
    ∀ r ∈ s'.stream.pel, ∃ m : ConsumedMessage, m.messageId = r.id ∧
      (m, r.consumer) ∈ s'.history.delivered ++ s'.history.claimed := by
  have hold : ∀ r ∈ s.stream.pel, ∃ m : ConsumedMessage, m.messageId = r.id ∧
      (m, r.consumer) ∈ s'.history.delivered ++ s'.history.claimed := fun r hr ↦ by
    obtain ⟨m, hm, hh⟩ := hs.owner r hr
    exact ⟨m, hm, handed_step he hh⟩
  intro r hr
  cases he with
  | quiet a i p p' stream _ _ _ _ _ _ _ _ hpel => exact hold r (hpel ▸ hr)
  | read i p p' args stream messages _ _ _ _ hread =>
    obtain ⟨-, rfl, -, -, hpel⟩ := StreamConsumer.read_eq_ok hread
    rcases List.mem_append.mp (hpel ▸ hr) with hr | hr
    · exact hold r hr
    · obtain ⟨e, hmem, rfl⟩ := List.mem_map.mp hr
      have hid := List.mem_map_of_mem (f := Prod.snd) hmem
      rw [← hs.map_messageId_read] at hid
      obtain ⟨m, hm, hme⟩ := List.mem_map.mp hid
      exact ⟨m, hme, List.mem_append_left _ (List.mem_append_right _ (List.mem_map_of_mem hm))⟩
  | claim i p p' minIdleMs count stream messages _ _ hclaim =>
    obtain ⟨-, -, -, hpel, hids, -⟩ := StreamConsumer.claimStale_eq_ok hclaim
    obtain ⟨q, hq, rfl⟩ := List.mem_map.mp (hpel ▸ hr)
    rw [GroupStream.reown]
    split
    · rename_i htaken
      rw [← hids hs.wellFormed] at htaken
      obtain ⟨m, hm, hmq⟩ := List.mem_map.mp htaken
      exact ⟨m, hmq, List.mem_append_right _ (List.mem_append_right _ (List.mem_map_of_mem hm))⟩
    · exact hold q hq
  | ack i p batch => exact hold r ((StreamConsumer.mem_pel_ackBatch _ _).mp hr).1
  | _ => exact hold r hr

theorem store_step (hs : Sound store₀ s) (he : Effect s a s') :
    s'.store = store₀ ++ s'.history.written.map rowOf := by
  cases he with
  | write i p batch =>
    show s.store.writeTicksBatch _ _ = _ ++ List.map rowOf (_ ++ _)
    rw [TickStore.writeTicksBatch_eq, hs.store, List.map_append, List.append_assoc, List.map_map,
      List.map_map]
    rfl
  | _ => exact hs.store

theorem sound_step (hs : Sound store₀ s) (he : Effect s a s') : Sound store₀ s' where
  wellFormed := wellFormed_step hs he
  delivered := delivered_step hs he
  claimed := claimed_step hs he
  genuine := genuine_step hs he
  toWrite := toWrite_step hs he
  toAck := toAck_step hs he
  written := written_step hs he
  acked := acked_step hs he
  pending := pending_step hs he
  owner := owner_step hs he
  store := store_step hs he

/-- **Every reachable state is sound.** -/
theorem sound_of_run {as : List Action} (hrun : run step (initial store₀) as = some s) :
    Sound store₀ s :=
  run_induction (fun _ _ _ hs h ↦ sound_step hs (effect_of_step h)) (sound_initial store₀) hrun

end

end Pool

end PostTrade
