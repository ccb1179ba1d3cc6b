import PostTrade.Simulate.Consumer
import PostTrade.Simulate.Drift
import PostTrade.Workers.Worker

/-!
# No tick is traded on twice, and some by nobody

The simulators acknowledge a message before they handle it.  `handled_at_most_once` is what this
buys: whatever the schedule and whatever crashes, no entry of the stream is traded on twice.
`rest_never_handled` is what it costs: the entries that a simulator has read and not acknowledged
when it ends are handled by nobody, since nothing in the group claims them back.

The count behind both is `Account`, which says where an entry can be.
-/

set_option autoImplicit false

namespace PostTrade

namespace Simulation

open ConsumerGroup Machine

/-! ## The account of an entry -/

/-- How often the process waits to handle entry `k`. -/
def waiting (k : ℕ) (p : SimulatorProcess) : ℕ := (messageIds p.phase.waiting).count k

/-- How often the process has entry `k` in hand, acknowledged and not handled. -/
def inHand (k : ℕ) (p : SimulatorProcess) : ℕ := (messageIds p.phase.inHand).count k

/-- Entry `k` waits for one process at most, and only while it is pending; once delivered it is
pending or was acknowledged once; and once acknowledged it was handled once, unless it is still in
the hands of the process that acknowledged it. -/
structure Account (s : Simulation) (k : ℕ) : Prop where
  waiting_le : tally (waiting k) s.simulators ≤ s.stream.pelIds.count k
  acked : s.history.acked.count k + s.stream.pelIds.count k
    = (List.range s.stream.cursor).count k
  handled : (messageIds s.history.handled).count k + tally (inHand k) s.simulators
    = s.history.acked.count k

theorem account_initial {stream : TickStream} (hnew : stream.created = false)
    (tickStore : TickStore) (bookStore : BookStore) (k : ℕ) :
    Account (initial stream tickStore bookStore) k := by
  obtain ⟨hcursor, hpel⟩ := stream.fresh hnew
  refine ⟨Nat.zero_le _, ?_, rfl⟩
  simp [initial, hcursor, hpel, GroupStream.pelIds]

section Account

variable {s s' : Simulation} {k : ℕ}

/-- A process that changes keeps the account of an entry where what it waits for gets less, and
what it has in hand stays. -/
theorem Account.move (h : Account s k) {i : ℕ} {p p' : SimulatorProcess}
    (hp : s.simulators[i]? = some p) (hset : s'.simulators = s.simulators.set i p')
    (hwaiting : waiting k p' ≤ waiting k p) (hinHand : inHand k p' = inHand k p)
    (hcursor : s'.stream.cursor = s.stream.cursor) (hpel : s'.stream.pelIds = s.stream.pelIds)
    (hhistory : s'.history = s.history) : Account s' k := by
  have hwaits := tally_set (waiting k) hp p'
  have hhands := tally_set (inHand k) hp p'
  rw [← hset] at hwaits hhands
  refine ⟨?_, ?_, ?_⟩
  · have := h.waiting_le
    rw [hpel]
    omega
  · rw [hhistory, hpel, hcursor]
    exact h.acked
  · have := h.handled
    rw [hhistory]
    omega

theorem account_step (he : Effect s s') (h : Account s k) : Account s' k := by
  cases he with
  | outside _ _ _ hcursor hpel hsimulators hhistory _ =>
    refine ⟨?_, ?_, ?_⟩
    · rw [hsimulators, hpel]
      exact h.waiting_le
    · rw [hhistory, hpel, hcursor]
      exact h.acked
    · rw [hhistory, hsimulators]
      exact h.handled
  | spawn p hstarting =>
    have hnone : waiting k p = 0 ∧ inHand k p = 0 := by
      rw [waiting, inHand, hstarting]
      exact ⟨rfl, rfl⟩
    refine ⟨?_, h.acked, ?_⟩
    · rw [tally_append, tally_singleton, hnone.1]
      exact h.waiting_le
    · rw [tally_append, tally_singleton, hnone.2]
      exact h.handled
  | crash i p hp => exact h.move hp rfl le_rfl rfl rfl rfl rfl
  | move _ i p p' hp _ hinHand hwaiting _ hcursor hpel hsimulators hhistory _ =>
    refine h.move hp hsimulators ?_ ?_ hcursor hpel hhistory
    · rcases hwaiting with hwaiting | hwaiting
      · rw [waiting, hwaiting, waiting]
      · rw [waiting, hwaiting]
        exact Nat.zero_le _
    · rw [inHand, hinHand.2, inHand, hinHand.1]
  | read i p p' stream messages hp _ hlooping hread hinHand hwaiting =>
    obtain ⟨-, rfl, -, hcursor, hpel⟩ := StreamConsumer.read_eq_ok hread
    have hids : stream.pelIds
        = s.stream.pelIds ++ (s.stream.nextBatch (20 : ℤ).toNat).map Prod.snd := by
      rw [GroupStream.pelIds, hpel, List.map_append, GroupStream.map_id_deliver,
        GroupStream.pelIds]
    have hbefore : waiting k p = 0 ∧ inHand k p = 0 := by
      rw [waiting, inHand, hlooping]
      exact ⟨rfl, rfl⟩
    have hwaits := tally_set (waiting k) hp p'
    have hhands := tally_set (inHand k) hp p'
    have hnew : waiting k p'
        ≤ ((s.stream.nextBatch (20 : ℤ).toNat).map Prod.snd).count k := by
      rw [waiting, hwaiting]
      exact (sublist_map_messageId _).count_le k
    have hnone : inHand k p' = 0 := by
      rw [inHand, hinHand]
      rfl
    refine ⟨?_, ?_, ?_⟩
    · have := h.waiting_le
      show tally (waiting k) (s.simulators.set i p') ≤ stream.pelIds.count k
      rw [hids, List.count_append]
      omega
    · have := h.acked
      show s.history.acked.count k + stream.pelIds.count k = (List.range stream.cursor).count k
      rw [hids, hcursor, ← GroupStream.range_append_nextBatch, List.count_append, List.count_append]
      omega
    · have := h.handled
      show (messageIds s.history.handled).count k + tally (inHand k) (s.simulators.set i p')
        = s.history.acked.count k
      omega
  | ack i p message rest hp _ hphase =>
    have hwaits := tally_set (waiting k) hp { p with phase := .handling message rest }
    have hhands := tally_set (inHand k) hp { p with phase := .handling message rest }
    have hwaiting : waiting k p
        = [message.messageId].count k
          + waiting k { p with phase := .handling message rest } := by
      rw [waiting, hphase]
      show ([message.messageId] ++ messageIds rest).count k = _
      exact List.count_append
    have hinHand : inHand k p = 0
        ∧ inHand k { p with phase := .handling message rest } = [message.messageId].count k := by
      rw [inHand, hphase]
      exact ⟨rfl, rfl⟩
    have hle := h.waiting_le
    have hacked := h.acked
    have hhandled := h.handled
    have hone := List.nodup_iff_count_le_one.mp s.stream.pelIds_nodup k
    have hpel : (StreamConsumer.ack s.stream message.messageId).pelIds.count k
        = s.stream.pelIds.count k - [message.messageId].count k := by
      rw [StreamConsumer.ack, GroupStream.count_pelIds_xack]
      by_cases hk : k = message.messageId
      · subst hk
        simp
        omega
      · simp [hk, Ne.symm hk]
    refine ⟨?_, ?_, ?_⟩
    · show tally (waiting k) (s.simulators.set i _)
        ≤ (StreamConsumer.ack s.stream message.messageId).pelIds.count k
      omega
    · show (s.history.acked ++ [message.messageId]).count k
        + (StreamConsumer.ack s.stream message.messageId).pelIds.count k
        = (List.range s.stream.cursor).count k
      rw [List.count_append]
      omega
    · show (messageIds s.history.handled).count k + tally (inHand k) (s.simulators.set i _)
        = (s.history.acked ++ [message.messageId]).count k
      rw [List.count_append]
      omega
  | handle i p message rest draws hp _ hphase =>
    obtain ⟨hstream, hacked, hhandled, p', hset, hwaiting, hnone⟩ :=
      handleMessage_spec (s := s) (i := i) (p := p) message rest draws
    have hwaits := tally_set (waiting k) hp p'
    have hhands := tally_set (inHand k) hp p'
    have hsame : waiting k p' = waiting k p := by
      rw [waiting, hwaiting, waiting, hphase]
      rfl
    have hinHand : inHand k p' = 0 ∧ inHand k p = [message.messageId].count k := by
      rw [inHand, hnone, inHand, hphase]
      exact ⟨rfl, rfl⟩
    refine ⟨?_, ?_, ?_⟩
    · have := h.waiting_le
      rw [hset, hstream]
      omega
    · rw [hacked, hstream]
      exact h.acked
    · have := h.handled
      rw [hhandled, hacked, hset, messageIds_append, List.count_append]
      show _ + [message.messageId].count k + _ = _
      omega

theorem account_run {stream : TickStream} (hnew : stream.created = false) {tickStore : TickStore}
    {bookStore : BookStore} {actions : List SimulationAction}
    (hrun : run step (initial stream tickStore bookStore) actions = some s) : Account s k :=
  run_induction (fun _ _ _ h hstep ↦ account_step (effect_of_step hstep) h)
    (account_initial hnew tickStore bookStore k) hrun

end Account

/-! ## What is handled, and what it is answered with -/

/-- The message is an entry of the stream. -/
def IsEntry (s : Simulation) (m : ConsumedMessage) : Prop :=
  s.stream.entries[m.messageId]? = some ⟨some m.tick⟩

/-- The fill answers the message. -/
def Answers (fill : Fill) (m : ConsumedMessage) : Prop :=
  fill.symbol = m.tick.symbol ∧ fill.price = m.tick.price

/-- What the processes have, and what they handled, are entries of the stream; and every fill
written answers a message of its own. -/
structure Sound (book : BookStore) (s : Simulation) : Prop where
  held : ∀ p ∈ s.simulators, ∀ m ∈ p.phase.inHand ++ p.phase.waiting, s.IsEntry m
  handled : ∀ m ∈ s.history.handled, s.IsEntry m
  filled : s.history.filled.Sublist s.history.handled
  fills : ∃ new messages, s.bookStore.fills = book.fills ++ new ∧
    messages.Sublist s.history.filled ∧ List.Forall₂ Answers new messages

section Sound

variable {book : BookStore} {s s' : Simulation}

theorem IsEntry.mono {m : ConsumedMessage} (h : s.IsEntry m)
    (hentries : s.stream.entries <+: s'.stream.entries) : s'.IsEntry m := by
  obtain ⟨more, hmore⟩ := hentries
  rw [IsEntry, ← hmore, List.getElem?_append_left (List.getElem?_eq_some_iff.mp h).1]
  exact h

theorem sound_initial (stream : TickStream) (tickStore : TickStore) :
    Sound book (initial stream tickStore book) :=
  ⟨by simp [initial], by simp [initial], List.Sublist.slnil,
    [], [], (List.append_nil _).symm, List.Sublist.slnil, List.Forall₂.nil⟩

/-- A process moves on, and what it then has are entries. -/
theorem Sound.move (h : Sound book s) {i : ℕ} {p' : SimulatorProcess}
    (hset : s'.simulators = s.simulators.set i p')
    (hentries : s.stream.entries <+: s'.stream.entries)
    (hheld : ∀ m ∈ p'.phase.inHand ++ p'.phase.waiting, s'.IsEntry m)
    (hhandled : ∀ m ∈ s'.history.handled, s'.IsEntry m)
    (hfilled : s'.history.filled.Sublist s'.history.handled)
    (hfills : ∃ new messages, s'.bookStore.fills = book.fills ++ new ∧
      messages.Sublist s'.history.filled ∧ List.Forall₂ Answers new messages) :
    Sound book s' := by
  refine ⟨fun q hq m hm ↦ ?_, hhandled, hfilled, hfills⟩
  rw [hset] at hq
  rcases mem_of_mem_set hq with hq | rfl
  · exact (h.held q hq m hm).mono hentries
  · exact hheld m hm

/-- A fill that is written answers its message. -/
theorem fills_handleMessage (i : ℕ) (p : SimulatorProcess) (message : ConsumedMessage)
    (rest : List ConsumedMessage) (draws : Draws) :
    let s' := s.handleMessage i p message rest draws
    (s'.bookStore.fills = s.bookStore.fills ∧ (s'.history.filled = s.history.filled ∨
        s'.history.filled = s.history.filled ++ [message])) ∨
      ∃ fill, Answers fill message ∧ s'.bookStore.fills = s.bookStore.fills ++ [fill] ∧
        s'.history.filled = s.history.filled ++ [message] := by
  intro s'
  simp only [s', handleMessage]
  split
  · set tracked := (p.memory.attach s.tickStore s.bookStore).trackSequence message.tick
      with htracked
    by_cases hfresh : draws.fillId ∈ s.bookStore.fills.map Fill.fillId
    · refine .inl ⟨?_, .inr rfl⟩
      show ((tracked.bookFill p.config draws message.tick).bookStore).fills = _
      rw [Simulator.bookFill]
      show (BookStore.writeFill s.bookStore _).fills = _
      rw [BookStore.writeFill, if_pos (by exact hfresh)]
    · refine .inr ⟨tracked.newFill p.config draws message.tick, ⟨rfl, rfl⟩, ?_, rfl⟩
      exact congrArg BookStore.fills
        (Simulator.bookFill_bookStore p.config draws message.tick (s := tracked) hfresh)
  · exact .inl ⟨rfl, .inl rfl⟩

theorem sound_step (he : Effect s s') (h : Sound book s) : Sound book s' := by
  obtain ⟨new, messages, hnew, hsub, hall⟩ := h.fills
  cases he with
  | outside _ hentries _ _ _ hsimulators hhistory hfills =>
    refine ⟨fun p hp m hm ↦ ?_, fun m hm ↦ ?_, ?_, new, messages, ?_, ?_, hall⟩
    · rw [hsimulators] at hp
      exact (h.held p hp m hm).mono hentries
    · rw [hhistory] at hm
      exact (h.handled m hm).mono hentries
    · rw [hhistory]
      exact h.filled
    · rw [hfills, hnew]
    · rw [hhistory]
      exact hsub
  | spawn p hstarting =>
    refine ⟨fun q hq m hm ↦ ?_, h.handled, h.filled, h.fills⟩
    rcases List.mem_append.mp hq with hq | hq
    · exact h.held q hq m hm
    · rw [List.mem_singleton.mp hq, hstarting] at hm
      cases hm
  | crash i p hp =>
    exact h.move rfl (List.prefix_refl _) (h.held p (List.mem_of_getElem? hp)) h.handled h.filled
      h.fills
  | move _ i p p' hp _ hinHand hwaiting hentries _ _ hsimulators hhistory hfills =>
    have hprefix : s.stream.entries <+: s'.stream.entries := by rw [hentries]
    refine h.move hsimulators hprefix (fun m hm ↦ ?_) (fun m hm ↦ ?_) ?_
      ⟨new, messages, by rw [hfills, hnew], by rw [hhistory]; exact hsub, hall⟩
    · rw [hinHand.2, List.nil_append] at hm
      rcases hwaiting with hwaiting | hwaiting
      · rw [hwaiting] at hm
        exact (h.held p (List.mem_of_getElem? hp) m (List.mem_append_right _ hm)).mono hprefix
      · rw [hwaiting] at hm
        cases hm
    · rw [hhistory] at hm
      exact (h.handled m hm).mono hprefix
    · rw [hhistory]
      exact h.filled
  | read i p p' stream messages hp _ _ hread hinHand hwaiting =>
    obtain ⟨-, hmessages, hentries, -, -⟩ := StreamConsumer.read_eq_ok hread
    have hprefix : s.stream.entries <+: stream.entries := by rw [hentries]
    refine h.move rfl hprefix (fun m hm ↦ ?_) (fun m hm ↦ (h.handled m hm).mono hprefix) h.filled
      h.fills
    rw [hinHand, List.nil_append, hwaiting, hmessages, mem_parseEntries] at hm
    have hentry : s.IsEntry m := GroupStream.getElem?_of_mem_nextBatch hm
    exact hentry.mono hprefix
  | ack i p message rest hp _ hphase =>
    refine h.move rfl (List.prefix_refl _) (fun m hm ↦ ?_) h.handled h.filled h.fills
    refine h.held p (List.mem_of_getElem? hp) m ?_
    rw [hphase]
    exact hm
  | handle i p message rest draws hp _ hphase =>
    obtain ⟨hstream, -, hhandled, p', hset, hwaiting, hnone⟩ :=
      handleMessage_spec (s := s) (i := i) (p := p) message rest draws
    have hprefix :
        s.stream.entries <+: (s.handleMessage i p message rest draws).stream.entries := by
      rw [hstream]
    have hheld : ∀ m ∈ message :: rest,
        (s.handleMessage i p message rest draws).IsEntry m := by
      intro m hm
      refine (h.held p (List.mem_of_getElem? hp) m ?_).mono hprefix
      rw [hphase]
      exact hm
    have hcases := fills_handleMessage (s := s) i p message rest draws
    refine h.move hset hprefix (fun m hm ↦ ?_) (fun m hm ↦ ?_) ?_ ?_
    · rw [hnone, List.nil_append, hwaiting] at hm
      exact hheld m (List.mem_cons_of_mem _ hm)
    · rw [hhandled] at hm
      rcases List.mem_append.mp hm with hm | hm
      · exact (h.handled m hm).mono hprefix
      · rw [List.mem_singleton.mp hm]
        exact hheld message List.mem_cons_self
    · rw [hhandled]
      rcases hcases with ⟨-, hfilled | hfilled⟩ | ⟨-, -, -, hfilled⟩
      · rw [hfilled]
        exact h.filled.trans (List.sublist_append_left _ _)
      · rw [hfilled]
        exact h.filled.append (List.Sublist.refl _)
      · rw [hfilled]
        exact h.filled.append (List.Sublist.refl _)
    · rcases hcases with ⟨hfills, hfilled⟩ | ⟨fill, hanswers, hfills, hfilled⟩
      · refine ⟨new, messages, hfills.trans hnew, ?_, hall⟩
        rcases hfilled with hfilled | hfilled
        · rw [hfilled]
          exact hsub
        · rw [hfilled]
          exact hsub.trans (List.sublist_append_left _ _)
      · refine ⟨new ++ [fill], messages ++ [message], ?_, ?_, ?_⟩
        · rw [hfills, hnew, List.append_assoc]
        · rw [hfilled]
          exact hsub.append (List.Sublist.refl _)
        · exact List.rel_append hall (.cons hanswers .nil)

theorem sound_run {stream : TickStream} {tickStore : TickStore} {actions : List SimulationAction}
    (hrun : run step (initial stream tickStore book) actions = some s) : Sound book s :=
  run_induction (fun _ _ _ h hstep ↦ sound_step (effect_of_step hstep) h)
    (sound_initial stream tickStore) hrun

end Sound

/-! ## At most once -/

theorem count_inHand (simulators : List SimulatorProcess) (k : ℕ) :
    (messageIds (simulators.flatMap fun p ↦ p.phase.inHand)).count k
      = tally (inHand k) simulators := by
  rw [messageIds, List.map_flatMap, List.count_flatMap, tally]
  rfl

/-- **No entry is handled twice.**  However many simulators run on the group, in whatever order
they take their steps and wherever they are killed: an entry delivered is pending or was
acknowledged once, an entry acknowledged was handled once or is the one message in the hands of a
process, what is handled are the ticks of distinct entries, and every fill written answers an entry
that no other fill answers. -/
theorem handled_at_most_once (stream : TickStream) (hnew : stream.created = false)
    (tickStore : TickStore) (bookStore : BookStore) (actions : List SimulationAction)
    (t : Simulation) (hrun : run step (initial stream tickStore bookStore) actions = some t) :
    (t.history.acked ++ t.stream.pelIds).Perm (List.range t.stream.cursor) ∧
      (messageIds t.history.handled
        ++ messageIds (t.simulators.flatMap fun p ↦ p.phase.inHand)).Perm t.history.acked ∧
      (messageIds t.history.handled).Nodup ∧ (∀ m ∈ t.history.handled, t.IsEntry m) ∧
      ∃ new messages, t.bookStore.fills = bookStore.fills ++ new ∧
        messages.Sublist t.history.handled ∧ List.Forall₂ Answers new messages := by
  have haccount : ∀ k, Account t k := fun k ↦ account_run hnew hrun
  have hsound := sound_run hrun
  have hacked : (t.history.acked ++ t.stream.pelIds).Perm (List.range t.stream.cursor) := by
    refine List.perm_iff_count.mpr fun k ↦ ?_
    rw [List.count_append]
    exact (haccount k).acked
  have hhandled : (messageIds t.history.handled
      ++ messageIds (t.simulators.flatMap fun p ↦ p.phase.inHand)).Perm t.history.acked := by
    refine List.perm_iff_count.mpr fun k ↦ ?_
    rw [List.count_append, count_inHand]
    exact (haccount k).handled
  have hnodup : (messageIds t.history.handled).Nodup := by
    have hall := hacked.nodup_iff.mpr List.nodup_range
    have hboth := hhandled.nodup_iff.mpr (List.nodup_append.mp hall).1
    exact (List.nodup_append.mp hboth).1
  obtain ⟨new, messages, hfills, hsub, hanswers⟩ := hsound.fills
  exact ⟨hacked, hhandled, hnodup, hsound.handled, new, messages, hfills,
    hsub.trans hsound.filled, hanswers⟩

/-! ## What is left behind -/

/-- The entry is pending, and no live process waits to handle it. -/
structure LeftBehind (s : Simulation) (k : ℕ) : Prop where
  pending : k ∈ s.stream.pelIds
  unattended : ∀ p ∈ s.simulators, p.alive = true → k ∉ messageIds p.phase.waiting

section LeftBehind

variable {s s' : Simulation} {k : ℕ}

/-- What is left behind stays there. -/
theorem LeftBehind.step (h : LeftBehind s k) (he : Effect s s') : LeftBehind s' k := by
  have hset : ∀ {i : ℕ} {p' : SimulatorProcess},
      (p'.alive = true → k ∉ messageIds p'.phase.waiting) →
        ∀ q ∈ s.simulators.set i p', q.alive = true → k ∉ messageIds q.phase.waiting := by
    intro i p' hp' q hq
    rcases mem_of_mem_set hq with hq | rfl
    · exact h.unattended q hq
    · exact hp'
  cases he with
  | outside _ _ _ _ hpel hsimulators _ _ =>
    refine ⟨?_, ?_⟩
    · rw [hpel]
      exact h.pending
    · rw [hsimulators]
      exact h.unattended
  | spawn p hstarting =>
    refine ⟨h.pending, fun q hq hlive ↦ ?_⟩
    rcases List.mem_append.mp hq with hq | hq
    · exact h.unattended q hq hlive
    · rw [List.mem_singleton.mp hq, hstarting]
      exact List.not_mem_nil
  | crash i p hp => exact ⟨h.pending, hset fun hlive ↦ absurd hlive Bool.false_ne_true⟩
  | move _ i p p' hp hlive _ hwaiting _ _ hpel hsimulators _ _ =>
    refine ⟨?_, ?_⟩
    · rw [hpel]
      exact h.pending
    · rw [hsimulators]
      refine hset fun _ ↦ ?_
      rcases hwaiting with hwaiting | hwaiting
      · rw [hwaiting]
        exact h.unattended p (List.mem_of_getElem? hp) hlive
      · rw [hwaiting]
        exact List.not_mem_nil
  | read i p p' stream messages hp _ _ hread _ hwaiting =>
    refine ⟨(StreamConsumer.mem_pelIds_read hread).mpr (.inl h.pending), hset fun _ hmem ↦ ?_⟩
    -- the read delivers entries that were not delivered before
    obtain ⟨-, hmessages, -⟩ := StreamConsumer.read_eq_ok hread
    rw [hwaiting, hmessages] at hmem
    have hnew := (s.stream.mem_map_snd_nextBatch _).mp ((sublist_map_messageId _).subset hmem)
    exact absurd (GroupStream.lt_cursor_of_mem_pelIds h.pending) (not_lt.mpr hnew.1)
  | ack i p message rest hp hlive hphase =>
    have hnot := h.unattended p (List.mem_of_getElem? hp) hlive
    rw [hphase] at hnot
    have hne : k ∉ [message.messageId] ∧ k ∉ messageIds rest := by
      simpa [messageIds, SimulatorPhase.waiting] using hnot
    exact ⟨GroupStream.mem_pelIds_xack.mpr ⟨h.pending, hne.1⟩, hset fun _ ↦ hne.2⟩
  | handle i p message rest draws hp hlive hphase =>
    obtain ⟨hstream, -, -, p', hsimulators, hwaiting, -⟩ :=
      handleMessage_spec (s := s) (i := i) (p := p) message rest draws
    refine ⟨?_, ?_⟩
    · rw [hstream]
      exact h.pending
    · rw [hsimulators]
      refine hset fun _ ↦ ?_
      have hnot := h.unattended p (List.mem_of_getElem? hp) hlive
      rw [hphase] at hnot
      rwa [hwaiting]

/-- A pending entry was not handled. -/
theorem Account.notMem_handled (h : Account s k) (hpending : k ∈ s.stream.pelIds) :
    k ∉ messageIds s.history.handled := by
  have hone := List.nodup_iff_count_le_one.mp (List.nodup_range (n := s.stream.cursor)) k
  have hpel := List.count_pos_iff.mpr hpending
  have hacked := h.acked
  have hhandled := h.handled
  exact List.count_eq_zero.mp (by omega)

/-- What a process waits to handle is pending, and no other process waits for it. -/
theorem Account.alone (h : Account s k) {i : ℕ} {p : SimulatorProcess}
    (hp : s.simulators[i]? = some p) (hk : k ∈ messageIds p.phase.waiting) :
    k ∈ s.stream.pelIds ∧ ∀ j q, s.simulators[j]? = some q →
      k ∈ messageIds q.phase.waiting → j = i := by
  have hone := List.nodup_iff_count_le_one.mp s.stream.pelIds_nodup k
  have hle := h.waiting_le
  have hpos : 0 < waiting k p := List.count_pos_iff.mpr hk
  have htally := le_tally_of_mem (waiting k) (List.mem_of_getElem? hp)
  refine ⟨List.count_pos_iff.mp (by omega), fun j q hq hkq ↦ ?_⟩
  by_contra hne
  -- with the process out of the way nobody waits for the entry
  have hset := tally_set (waiting k) hp { p with phase := .stopped }
  have hout : waiting k { p with phase := .stopped } = 0 := rfl
  have hnone : tally (waiting k) (s.simulators.set i { p with phase := .stopped }) = 0 := by omega
  have hmem : q ∈ s.simulators.set i { p with phase := .stopped } :=
    List.mem_of_getElem? (by rw [List.getElem?_set_ne (Ne.symm hne), hq])
  have hpos' : 0 < waiting k q := List.count_pos_iff.mpr hkq
  exact absurd (tally_eq_zero_iff.mp hnone q hmem) hpos'.ne'

/-- When the process that waits for a pending entry gives it up, it is left behind. -/
theorem Account.leftBehind (h : Account s k) {i : ℕ} {p p' : SimulatorProcess}
    (hp : s.simulators[i]? = some p) (hk : k ∈ messageIds p.phase.waiting)
    (hset : s'.simulators = s.simulators.set i p') (hpel : s'.stream.pelIds = s.stream.pelIds)
    (hgone : p'.alive = true → k ∉ messageIds p'.phase.waiting) : LeftBehind s' k := by
  obtain ⟨hpending, halone⟩ := h.alone hp hk
  refine ⟨hpel ▸ hpending, fun q hq hlive hkq ↦ ?_⟩
  obtain ⟨j, hj⟩ := List.mem_iff_getElem?.mp (hset ▸ hq)
  by_cases hji : j = i
  · subst hji
    have hlt := (List.getElem?_eq_some_iff.mp hp).1
    rw [List.getElem?_set_self hlt, Option.some_inj] at hj
    subst hj
    exact hgone hlive hkq
  · rw [List.getElem?_set_ne (Ne.symm hji)] at hj
    exact hji (halone j q hj hkq)

/-- The step ends process `i`: it is killed, or it returns. -/
inductive Ends (s : Simulation) (i : ℕ) : SimulationAction → Simulation → Prop
  | crash (s' : Simulation) : Ends s i (.crash i) s'
  | returns (s' : Simulation) (draws : Draws) (p' : SimulatorProcess)
    (hp' : s'.simulators[i]? = some p') (hstopped : p'.phase = .stopped) :
    Ends s i (.work i draws) s'

/-- A process that returns had its entries waiting after a fill. -/
theorem Account.leftBehind_of_ends (h : Account s k) {i : ℕ} {p : SimulatorProcess}
    (hp : s.simulators[i]? = some p) (hk : k ∈ messageIds p.phase.waiting)
    {a : SimulationAction} (hstep : s.step a = some s') (hends : Ends s i a s') :
    LeftBehind s' k := by
  cases hends with
  | crash =>
    obtain ⟨q, hq, hcrash⟩ := Option.map_eq_some_iff.mp hstep
    obtain rfl : p = q := Option.some_inj.mp (hp.symm.trans hq)
    cases hcrash
    exact h.leftBehind hp hk rfl rfl fun hlive ↦ absurd hlive Bool.false_ne_true
  | returns _ draws p' hp' hstopped =>
    obtain ⟨q, hq, hwork⟩ := Option.bind_eq_some_iff.mp hstep
    obtain rfl : p = q := Option.some_inj.mp (hp.symm.trans hq)
    have hlt := (List.getElem?_eq_some_iff.mp hp).1
    have hnow : ∀ p'' : SimulatorProcess, s'.simulators = s.simulators.set i p'' →
        p''.phase = .stopped := by
      intro p'' hset
      rw [hset, List.getElem?_set_self hlt, Option.some_inj] at hp'
      rw [hp', hstopped]
    rw [work] at hwork
    split at hwork
    · cases hwork
    · split at hwork
      · rename_i hphase
        rw [hphase] at hk
        cases hk
      · rename_i hphase
        rw [hphase] at hk
        cases hk
      · cases hwork
        cases hnow _ rfl
      · rename_i message rest hphase
        cases hwork
        rw [handleMessage] at hnow
        dsimp only at hnow
        split at hnow
        · cases hnow _ rfl
        · have hnext := hnow _ rfl
          cases rest with
          | nil => cases hnext
          | cons m rest => cases hnext
      · cases hwork
        refine h.leftBehind hp hk rfl rfl fun _ ↦ ?_
        rw [hnow _ rfl]
        exact List.not_mem_nil
      · cases hwork
      · cases hwork

end LeftBehind

/-- **What a simulator leaves of its last read is lost.**  When a simulator is killed, or returns
with its fills made, the entries of the read that it has not acknowledged stay pending, and no
simulator of the group handles them in whatever happens after. -/
theorem rest_never_handled (stream : TickStream) (hnew : stream.created = false)
    (tickStore : TickStore) (bookStore : BookStore) (actions more : List SimulationAction)
    (s s' t : Simulation) (hrun : run step (initial stream tickStore bookStore) actions = some s)
    (i : ℕ) (p : SimulatorProcess) (hp : s.simulators[i]? = some p) (a : SimulationAction)
    (hstep : s.step a = some s') (hends : Ends s i a s') (hmore : run step s' more = some t)
    (k : ℕ) (hk : k ∈ messageIds p.phase.waiting) :
    k ∈ t.stream.pelIds ∧ k ∉ messageIds t.history.handled := by
  have hleft : LeftBehind s' k :=
    (account_run hnew hrun).leftBehind_of_ends hp hk hstep hends
  have hlater : LeftBehind t k :=
    run_induction (I := fun s ↦ LeftBehind s k)
      (fun _ _ _ h hstep ↦ h.step (effect_of_step hstep)) hleft hmore
  have hwhole : run step (initial stream tickStore bookStore) (actions ++ a :: more) = some t :=
    run_append_eq_some.mpr ⟨s, hrun, run_cons_eq_some.mpr ⟨s', hstep, hmore⟩⟩
  exact ⟨hlater.pending, (account_run hnew hwhole).notMem_handled hlater.pending⟩

/-! ### A simulator that is to make one fill -/

/-- Two trades are published, and a simulator that is to make one fill reads both and answers the
first. -/
def oneFillRun : List SimulationAction :=
  [.publish (btcTick 1 0), .publish (btcTick 1 0),
      .spawn "simulator".toList {} (some 1) none]
    ++ List.replicate 4 (.work 0 Simulator.driftDraws)

/-- It returns, and another one starts and looks for more. -/
def secondRun : List SimulationAction :=
  .spawn "simulator".toList {} none none :: List.replicate 2 (.work 1 Simulator.driftDraws)

/-- The states before it returns, after it has, and in the end. -/
def oneFill : Simulation :=
  (run step (initial (Pool.initial []).stream [] {}) oneFillRun).get (by decide +kernel)

def oneFillReturned : Simulation :=
  (step oneFill (.work 0 Simulator.driftDraws)).get (by decide +kernel)

def oneFillEnd : Simulation := (run step oneFillReturned secondRun).get (by decide +kernel)

theorem handled_at_most_once_oneFill :
    messageIds oneFill.history.handled = [0] ∧ (messageIds oneFill.history.handled).Nodup :=
  ⟨by decide +kernel, (handled_at_most_once (Pool.initial []).stream rfl [] {} oneFillRun oneFill
    (Option.some_get _).symm).2.2.1⟩

/-- The second trade is pending, and nobody handles it. -/
theorem rest_never_handled_second :
    1 ∈ oneFillEnd.stream.pelIds ∧ 1 ∉ messageIds oneFillEnd.history.handled :=
  rest_never_handled (Pool.initial []).stream rfl [] {} oneFillRun secondRun oneFill
    oneFillReturned oneFillEnd (Option.some_get _).symm 0
    (oneFill.simulators.get ⟨0, by decide +kernel⟩)
    (List.getElem?_eq_some_iff.mpr ⟨by decide +kernel, rfl⟩) (.work 0 Simulator.driftDraws)
    (Option.some_get _).symm
    (.returns _ _ (oneFillReturned.simulators.get ⟨0, by decide +kernel⟩)
      (List.getElem?_eq_some_iff.mpr ⟨by decide +kernel, rfl⟩) (by decide +kernel))
    (Option.some_get _).symm 1 (by decide +kernel)

end Simulation

end PostTrade
