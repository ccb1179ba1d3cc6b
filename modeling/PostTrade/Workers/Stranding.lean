import PostTrade.Workers.Recovery

/-!
# What a run of the pool leaves behind

`run_worker` never calls `claim_stale`, so an entry that is pending and in nobody's hands stays
pending: another run of the pool reads new entries only.  Two steps strand an entry.  A process
crashes with messages in hand; or a read returns more than `max_messages` still allows, and the
rest of the batch is dropped after `XREADGROUP` has delivered it.

`drained_after_second_run_iff` says that these two are all: a second run without a limit, crash-free
and until all its workers are idle, leaves every entry written and acknowledged exactly when no
step of the first run stranded one.
-/

set_option autoImplicit false

namespace PostTrade

namespace Pool

open ConsumerGroup Machine

/-! ## Hands -/

/-- The ids of the messages a process has in hand. -/
def inHand (p : Process) : List ℕ := p.phase.batch.map ConsumedMessage.messageId

/-- How many hands entry `k` is in. -/
def holders (s : Pool) (k : ℕ) : ℕ := tally (fun p ↦ (inHand p).count k) s.processes

/-- The entry is pending and in nobody's hands. -/
def Stranded (s : Pool) (k : ℕ) : Prop := k ∈ s.stream.pelIds ∧ s.holders k = 0

/-- How many entries are undelivered. -/
def backlog (s : Pool) : ℕ := s.stream.entries.length - s.stream.cursor

/-- The next read of the process returns more than its limit allows. -/
def NextReadCut (s : Pool) (p : Process) : Prop :=
  match p.role with
  | .recovery => False
  | .worker args =>
    match args.maxMessages with
    | none => False
    | some limit =>
      p.phase = .looping ∧ p.running = true ∧ 1 ≤ args.readBatchSize ∧ 0 < s.backlog ∧
        limit < p.processed + min args.readBatchSize s.backlog

/-- The step strands no entry: no process crashes with messages in hand, and no read returns more
than the limit of its process allows. -/
def LeavesNone (s : Pool) : Action → Prop
  | .crash i => ∀ p ∈ s.processes[i]?, inHand p = []
  | .work i => ∀ p ∈ s.processes[i]?, ¬ s.NextReadCut p
  | _ => True

instance (s : Pool) (p : Process) : Decidable (s.NextReadCut p) := by
  unfold NextReadCut
  split
  · infer_instance
  · split
    · infer_instance
    · infer_instance

instance (s : Pool) (a : Action) : Decidable (LeavesNone s a) :=
  match a with
  | .crash i => inferInstanceAs (Decidable (∀ p ∈ s.processes[i]?, inHand p = []))
  | .work i => inferInstanceAs (Decidable (∀ p ∈ s.processes[i]?, ¬ s.NextReadCut p))
  | .publish _ | .spawn _ _ | .claim _ _ _ | .signal _ | .wait _ =>
    inferInstanceAs (Decidable True)

theorem length_sliceTo_lt {α : Type*} {l : List α} {stop : ℤ} (hl : 0 < l.length)
    (h : stop < l.length) : (sliceTo l stop).length < l.length := by
  rw [sliceTo, List.length_take]
  split
  · omega
  · omega

/-- A batch within the limit is kept, and a longer one is cut. -/
theorem limitBatch_eq_or_length_lt (maxMessages : Option ℤ) (processed : ℕ)
    (messages : List ConsumedMessage) :
    (limitBatch maxMessages processed messages = messages ∧
        ∀ limit ∈ maxMessages, 0 < messages.length → processed + messages.length ≤ limit) ∨
      ((limitBatch maxMessages processed messages).length < messages.length ∧
        ∃ limit ∈ maxMessages, limit < processed + messages.length) := by
  cases maxMessages with
  | none => exact Or.inl ⟨rfl, fun _ h ↦ by cases h⟩
  | some limit =>
    rw [limitBatch]
    split
    · rename_i hover
      rcases Nat.eq_zero_or_pos messages.length with hzero | hpos
      · rw [List.eq_nil_of_length_eq_zero hzero]
        exact Or.inl ⟨by simp [sliceTo], fun _ _ h ↦ absurd h (lt_irrefl 0)⟩
      · exact Or.inr ⟨length_sliceTo_lt hpos (by omega), limit, rfl, hover⟩
    · rename_i hunder
      exact Or.inl ⟨rfl, fun l hl _ ↦ by cases hl; omega⟩

theorem length_nextBatch (s : Pool) (count : ℕ) :
    (s.stream.nextBatch count).length = min count s.backlog := by
  rw [GroupStream.nextBatch, List.length_take, GroupStream.undelivered, List.length_drop,
    List.length_zipIdx, backlog]

variable {store₀ : TickStore} {s s' : Pool} {a : Action} {k : ℕ}

theorem Sound.length_read (hs : Sound store₀ s) {consumerName : Str} {count : ℤ}
    {stream : TickStream} {messages : List ConsumedMessage}
    (hread : StreamConsumer.read s.stream consumerName count s.now = .ok (stream, messages)) :
    1 ≤ count ∧ (messages.length : ℤ) = min count s.backlog := by
  obtain ⟨hcount, rfl, -⟩ := StreamConsumer.read_eq_ok hread
  refine ⟨hcount, ?_⟩
  have := congrArg List.length (hs.map_messageId_read count.toNat)
  rw [List.length_map, List.length_map, length_nextBatch] at this
  omega

/-! ## How an entry changes its place -/

theorem inHand_eq (p : Process) : inHand p =
    p.phase.toWrite.map ConsumedMessage.messageId ++
      p.phase.toAck.map ConsumedMessage.messageId := by
  rw [inHand]
  cases p.phase <;> simp [Phase.batch, Phase.toWrite, Phase.toAck]

/-- What a step that claims nothing does to entry `k`. -/
inductive Move (s s' : Pool) (k : ℕ) : Action → Prop
  | stay (a : Action) (hpel : k ∈ s'.stream.pelIds ↔ k ∈ s.stream.pelIds)
    (hhold : s'.holders k = s.holders k) : Move s s' k a
  /-- It is delivered, and kept in hand if the limit of the process allows. -/
  | deliver (i : ℕ) (p : Process) (args : RunWorkerArgs) (messages : List ConsumedMessage)
    (hp : s.processes[i]? = some p) (hargs : p.role = .worker args)
    (hlooping : p.phase = .looping) (hrunning : p.running = true) (hsize : 1 ≤ args.readBatchSize)
    (hlength : (messages.length : ℤ) = min args.readBatchSize s.backlog)
    (hnodup : (messages.map ConsumedMessage.messageId).Nodup)
    (hnew : s.stream.cursor ≤ k) (hk : k ∈ messages.map ConsumedMessage.messageId)
    (hpel : k ∈ s'.stream.pelIds)
    (hhold : s'.holders k = s.holders k +
      ((limitBatch args.maxMessages p.processed messages).map ConsumedMessage.messageId).count k) :
    Move s s' k (.work i)
  /-- The process that has it in hand crashes. -/
  | drop (i : ℕ) (p : Process) (hp : s.processes[i]? = some p) (hk : k ∈ inHand p)
    (hpel : k ∈ s'.stream.pelIds ↔ k ∈ s.stream.pelIds)
    (hhold : s'.holders k + (inHand p).count k = s.holders k) : Move s s' k (.crash i)
  /-- The process that has it in hand acknowledges it. -/
  | ack (i : ℕ) (p : Process) (hk : k ∈ inHand p) (hpel : k ∉ s'.stream.pelIds)
    (hhold : s'.holders k + (inHand p).count k = s.holders k) : Move s s' k (.work i)

/-- When one process changes, what it had in hand and what it has now make the difference. -/
theorem holders_setProcess {i : ℕ} {p : Process} (hp : s.processes[i]? = some p) (p' : Process)
    (k : ℕ) : (s.setProcess i p').holders k + (inHand p).count k
      = s.holders k + (inHand p').count k :=
  tally_set (fun p ↦ (inHand p).count k) hp p'

/-- An acknowledged batch is in no hand any more. -/
theorem holders_ackBatch {i : ℕ} {p : Process} (hp : s.processes[i]? = some p)
    (batch : List ConsumedMessage) (k : ℕ) :
    (s.ackBatch i p batch).holders k + (inHand p).count k = s.holders k := by
  have hhold : (s.ackBatch i p batch).holders k + (inHand p).count k
      = s.holders k + (inHand _).count k := holders_setProcess hp _ k
  rw [hhold, inHand]
  cases hrole : p.role with
  | worker args => simp [Phase.batch]
  | recovery => simp [Phase.batch]

/-- **A step that claims nothing moves an entry in one of these ways.** -/
theorem move_of_effect (hs : Sound store₀ s) (he : Effect s a s') (hclaim : a.isClaim = false)
    (k : ℕ) : Move s s' k a := by
  cases he with
  | publish => exact .stay _ Iff.rfl rfl
  | wait => exact .stay _ Iff.rfl rfl
  | spawn consumerName role =>
    refine .stay _ Iff.rfl ?_
    show tally _ (_ ++ _) = _
    rw [tally_append, tally_singleton]
    rfl
  | quiet a i p p' stream hp _ _ _ hwrite hack _ _ hpel =>
    have hhold := holders_setProcess hp p' k
    have hsame : inHand p' = inHand p := by rw [inHand_eq, hwrite, hack, inHand_eq]
    rw [hsame] at hhold
    refine .stay _ ?_ (Nat.add_right_cancel hhold)
    show k ∈ stream.pel.map _ ↔ _
    rw [hpel]
    rfl
  | crash i p hp =>
    have hhold := holders_setProcess hp { p with phase := .crashed } k
    by_cases hk : k ∈ inHand p
    · exact .drop i p hp hk Iff.rfl hhold
    · refine .stay _ Iff.rfl ?_
      rw [List.count_eq_zero.mpr hk] at hhold
      exact hhold
  | read i p p' args stream messages hp hargs hlooping hrunning hread _ _ hwrite hack =>
    have hhold := holders_setProcess hp p' k
    have hempty : inHand p = [] := by rw [inHand, hlooping]; rfl
    have hnow : inHand p' =
        (limitBatch args.maxMessages p.processed messages).map ConsumedMessage.messageId := by
      rw [inHand_eq, hwrite, hack, List.map_nil, List.append_nil]
    rw [hempty, List.count_nil, hnow] at hhold
    have hpel := StreamConsumer.mem_pelIds_read hread (k := k)
    have hids := hs.mem_read hread (k := k)
    obtain ⟨hsize, hlength⟩ := hs.length_read hread
    by_cases hk : k ∈ messages.map ConsumedMessage.messageId
    · exact .deliver i p args messages hp hargs hlooping hrunning hsize hlength
        (hs.nodup_read hread) (hids.mp hk).1 hk (hpel.mpr (Or.inr (hids.mp hk))) hhold
    · refine .stay _ (hpel.trans (or_iff_left (hids.not.mp hk))) ?_
      rw [List.count_eq_zero.mpr fun h ↦
        hk (((limitBatch_sublist _ _ _).map _).subset h)] at hhold
      exact hhold
  | claim => cases hclaim
  | write i p batch hp hphase =>
    have hhold := holders_setProcess hp { p with phase := .acking batch } k
    have hsame : inHand p = batch.map ConsumedMessage.messageId := by rw [inHand, hphase]; rfl
    rw [hsame] at hhold
    exact .stay _ Iff.rfl (Nat.add_right_cancel hhold)
  | ack i p batch hp hphase =>
    have hhold := holders_ackBatch hp batch k
    have hbatch : inHand p = batch.map ConsumedMessage.messageId := by rw [inHand, hphase]; rfl
    have hpel := StreamConsumer.mem_pelIds_ackBatch s.stream
      (batch.map ConsumedMessage.messageId) (k := k)
    by_cases hk : k ∈ batch.map ConsumedMessage.messageId
    · exact .ack i p (hbatch ▸ hk) (fun h ↦ (hpel.mp h).2 hk) hhold
    · refine .stay _ (hpel.trans (and_iff_left hk)) ?_
      rw [hbatch, List.count_eq_zero.mpr hk] at hhold
      exact hhold

/-! ## Without claims every message is in one hand -/

/-- Nobody shares an entry, and what is in hand is pending. -/
structure Exclusive (s : Pool) (k : ℕ) : Prop where
  le_one : s.holders k ≤ 1
  pending : s.holders k ≠ 0 → k ∈ s.stream.pelIds

theorem Exclusive.new (h : Exclusive s k) (hnew : s.stream.cursor ≤ k) : s.holders k = 0 := by
  by_contra hhold
  exact absurd (GroupStream.lt_cursor_of_mem_pelIds (h.pending hhold)) (not_lt.mpr hnew)

theorem count_limitBatch_le_one {maxMessages : Option ℤ} {processed : ℕ}
    {messages : List ConsumedMessage}
    (hnodup : (messages.map ConsumedMessage.messageId).Nodup) :
    ((limitBatch maxMessages processed messages).map ConsumedMessage.messageId).count k ≤ 1 :=
  List.nodup_iff_count_le_one.mp (hnodup.sublist ((limitBatch_sublist _ _ _).map _)) k

theorem exclusive_step (h : Exclusive s k) (hm : Move s s' k a) : Exclusive s' k := by
  cases hm with
  | stay a hpel hhold => exact ⟨hhold ▸ h.le_one, fun hne ↦ hpel.mpr (h.pending (hhold ▸ hne))⟩
  | deliver i p args messages hp _ _ _ _ _ hnodup hnew hk hpel hhold =>
    refine ⟨?_, fun _ ↦ hpel⟩
    rw [hhold, h.new hnew, Nat.zero_add]
    exact count_limitBatch_le_one hnodup
  | drop i p hp hk hpel hhold =>
    have := h.le_one
    exact ⟨by omega, fun hne ↦ hpel.mpr (h.pending (by omega))⟩
  | ack i p hk hpel hhold =>
    have := h.le_one
    have := List.count_pos_iff.mpr hk
    exact ⟨by omega, fun hne ↦ by omega⟩

/-- Nobody comes back for a stranded entry. -/
theorem stranded_step (h : Stranded s k) (hm : Move s s' k a) : Stranded s' k := by
  obtain ⟨hpending, hnobody⟩ := h
  cases hm with
  | stay a hpel hhold => exact ⟨hpel.mpr hpending, hhold.trans hnobody⟩
  | deliver i p args messages _ _ _ _ _ _ _ hnew =>
    exact absurd (GroupStream.lt_cursor_of_mem_pelIds hpending) (not_lt.mpr hnew)
  | drop i p hp hk =>
    have := List.count_pos_iff.mpr hk
    omega
  | ack i p hk =>
    have := List.count_pos_iff.mpr hk
    omega

/-- A step that leaves none behind strands no entry. -/
theorem not_stranded_step (hleaves : LeavesNone s a) (h : ¬ Stranded s k) (hm : Move s s' k a) :
    ¬ Stranded s' k := by
  rintro ⟨hpending, hnobody⟩
  cases hm with
  | stay a hpel hhold => exact h ⟨hpel.mp hpending, hhold ▸ hnobody⟩
  | deliver i p args messages hp hargs hlooping hrunning hsize hlength hnodup hnew hk hpel hhold =>
    rcases limitBatch_eq_or_length_lt args.maxMessages p.processed messages with
      ⟨hkept, -⟩ | ⟨-, limit, hlimit, hover⟩
    · rw [hkept] at hhold
      have := List.count_pos_iff.mpr hk
      omega
    · -- the read was cut, which the step does not do
      refine hleaves p hp ?_
      rw [NextReadCut, hargs]
      dsimp only
      rw [Option.mem_def.mp hlimit]
      have hpos : 0 < messages.length := by
        rw [← List.length_map]
        exact List.length_pos_of_mem hk
      exact ⟨hlooping, hrunning, hsize, by omega, by omega⟩
  | drop i p hp hk =>
    rw [hleaves p hp] at hk
    exact absurd hk List.not_mem_nil
  | ack i p hk hpel => exact hpel hpending

theorem Exclusive.lone_holder (h : Exclusive s k) {p : Process} (hp : p ∈ s.processes)
    (hk : k ∈ inHand p) : s.holders k = 1 ∧ (inHand p).count k = 1 := by
  have hle := le_tally_of_mem (fun p ↦ (inHand p).count k) hp
  have hpos := List.count_pos_iff.mpr hk
  have hone := h.le_one
  rw [holders] at hone ⊢
  omega

/-- A batch over the limit loses a message. -/
theorem exists_dropped {maxMessages : Option ℤ} {limit : ℤ} (processed : ℕ)
    {messages : List ConsumedMessage} (hlimit : maxMessages = some limit)
    (hnodup : (messages.map ConsumedMessage.messageId).Nodup) (hpos : 0 < messages.length)
    (hover : limit < processed + messages.length) :
    ∃ k ∈ messages.map ConsumedMessage.messageId,
      k ∉ (limitBatch maxMessages processed messages).map ConsumedMessage.messageId := by
  have hshort : (limitBatch maxMessages processed messages).length < messages.length := by
    refine ((limitBatch_eq_or_length_lt _ _ _).resolve_left fun hkept ↦ ?_).1
    have := hkept.2 limit hlimit hpos
    omega
  by_contra hall
  push Not at hall
  have := (List.subperm_of_subset hnodup hall).length_le
  rw [List.length_map, List.length_map] at this
  omega

/-- A read that is cut strands an entry. -/
theorem exists_stranded_of_cut (hs : Sound store₀ s) (hexcl : ∀ k, Exclusive s k)
    (hready : GroupReady s) {i : ℕ} {p : Process} (hp : s.processes[i]? = some p)
    (hwork : s.work i p = some s') (hcut : s.NextReadCut p) : ∃ k, Stranded s' k := by
  rw [NextReadCut] at hcut
  split at hcut
  · exact absurd hcut id
  · rename_i args hargs
    split at hcut
    · exact absurd hcut id
    · rename_i limit hlimit
      obtain ⟨hlooping, hrunning, hsize, hbacklog, hover⟩ := hcut
      have hcreated : s.stream.created = true := by
        refine hready.resolve_right fun hidle ↦ ?_
        rcases hidle p (List.mem_of_getElem? hp) with hphase | hphase
        · exact absurd (hlooping.symm.trans hphase) (by simp)
        · exact absurd (hlooping.symm.trans hphase) (by simp)
      obtain ⟨⟨stream, messages⟩, hread⟩ := StreamConsumer.exists_read_of_created
        s.stream p.consumerName hcreated hsize s.now
      obtain ⟨-, hlength⟩ := hs.length_read hread
      have hne : messages ≠ [] := by
        rintro rfl
        rw [List.length_nil] at hlength
        omega
      obtain ⟨p', hp'⟩ : ∃ p', p' = { p with
          idleReads := 0
          phase := .writing (limitBatch args.maxMessages p.processed messages) } := ⟨_, rfl⟩
      have hs' : s' = { s with
          stream
          history.delivered :=
            s.history.delivered ++ messages.map fun m ↦ (m, p.consumerName) }.setProcess i p' := by
        rw [work, hlooping, hargs] at hwork
        simpa [readMessages, hrunning, hread, hne, hp'] using hwork.symm
      -- one of the messages delivered is over the limit, so it is in no hand
      obtain ⟨k, hk, hdropped⟩ := exists_dropped p.processed hlimit
        (hs.nodup_read hread) (List.length_pos_iff.mpr hne) (by omega)
      have hnew := (hs.mem_read hread).mp hk
      have hhold := holders_setProcess hp p' k
      have hbefore : inHand p = [] := by rw [inHand, hlooping]; rfl
      have hafter : (inHand p').count k = 0 := by
        rw [hp']
        exact List.count_eq_zero.mpr hdropped
      rw [hbefore, List.count_nil, (hexcl k).new hnew.1, hafter] at hhold
      rw [hs']
      exact ⟨k, (StreamConsumer.mem_pelIds_read hread).mpr (Or.inr hnew), hhold⟩

/-- A step that does not leave none behind strands an entry. -/
theorem exists_stranded_of_step (hs : Sound store₀ s) (hexcl : ∀ k, Exclusive s k)
    (hready : GroupReady s) (h : s.step a = some s') (hleaves : ¬ LeavesNone s a) :
    ∃ k, Stranded s' k := by
  cases a with
  | crash i =>
    obtain ⟨p, hp, hcrash⟩ := Option.bind_eq_some_iff.mp h
    have hne : inHand p ≠ [] := fun hnil ↦ hleaves fun q hq ↦ by
      cases hp.symm.trans hq
      exact hnil
    obtain ⟨k, hk⟩ := List.exists_mem_of_ne_nil _ hne
    have hmem := List.mem_of_getElem? hp
    obtain ⟨hone, hcount⟩ := (hexcl k).lone_holder hmem hk
    have hhold := holders_setProcess hp { p with phase := .crashed } k
    split at hcrash
    · cases hcrash
    · cases hcrash
      refine ⟨k, (hexcl k).pending (by omega), ?_⟩
      rw [hone, hcount] at hhold
      exact Nat.add_right_cancel hhold
  | work i =>
    obtain ⟨p, hp, hwork⟩ := Option.bind_eq_some_iff.mp h
    have hcut : s.NextReadCut p := by
      by_contra hnot
      refine hleaves fun q hq ↦ ?_
      cases hp.symm.trans hq
      exact hnot
    exact exists_stranded_of_cut hs hexcl hready hp hwork hcut
  | _ => exact absurd trivial hleaves

/-! ## The first run -/

/-- What the runs without claims keep. -/
structure Tidy (store₀ : TickStore) (s : Pool) : Prop where
  sound : Sound store₀ s
  exclusive : ∀ k, Exclusive s k
  ready : GroupReady s

theorem tidy_initial : Tidy store₀ (initial store₀) where
  sound := sound_initial store₀
  exclusive k := ⟨by simp [holders, initial, tally], by simp [holders, initial, tally]⟩
  ready := Or.inr (by simp [initial])

theorem Tidy.move (ht : Tidy store₀ s) (h : s.step a = some s') (hclaim : a.isClaim = false)
    (k : ℕ) : Move s s' k a :=
  move_of_effect ht.sound (effect_of_step h) hclaim k

theorem tidy_step (ht : Tidy store₀ s) (h : s.step a = some s') (hclaim : a.isClaim = false) :
    Tidy store₀ s' where
  sound := sound_step ht.sound (effect_of_step h)
  exclusive k := exclusive_step (ht.exclusive k) (ht.move h hclaim k)
  ready := groupReady_step h ht.ready

section

variable {as : List Action} (hclaim : ∀ a ∈ as, a.isClaim = false)

include hclaim

theorem tidy_run (ht : Tidy store₀ s) (hrun : run step s as = some s') : Tidy store₀ s' :=
  Along.induction (P := fun _ a ↦ a.isClaim = false) (fun _ _ _ ht hP h ↦ tidy_step ht h hP) ht
    (Along.of_forall hclaim) hrun

theorem stranded_run (ht : Tidy store₀ s) (h : Stranded s k) (hrun : run step s as = some s') :
    Stranded s' k :=
  (Along.induction (I := fun s ↦ Tidy store₀ s ∧ Stranded s k)
    (P := fun _ a ↦ a.isClaim = false)
    (fun _ _ _ hI hP h ↦ ⟨tidy_step hI.1 h hP, stranded_step hI.2 (hI.1.move h hP k)⟩) ⟨ht, h⟩
    (Along.of_forall hclaim) hrun).2

/-- Along steps that leave none behind no entry is stranded. -/
theorem not_stranded_run (ht : Tidy store₀ s) (h : ∀ k, ¬ Stranded s k)
    (hleaves : Along step LeavesNone s as) (hrun : run step s as = some s') :
    ∀ k, ¬ Stranded s' k :=
  (Along.induction (I := fun s ↦ Tidy store₀ s ∧ ∀ k, ¬ Stranded s k)
    (fun _ _ _ hI hP h ↦ ⟨tidy_step hI.1 h hP.2,
      fun k ↦ not_stranded_step hP.1 (hI.2 k) (hI.1.move h hP.2 k)⟩) ⟨ht, h⟩
    (hleaves.and (Along.of_forall hclaim)) hrun).2

/-- **A run strands an entry exactly when one of its steps does.** -/
theorem exists_stranded_iff (hrun : run step (initial store₀) as = some s) :
    (∃ k, Stranded s k) ↔ ¬ Along step LeavesNone (initial store₀) as := by
  constructor
  · rintro ⟨k, hk⟩ hleaves
    refine not_stranded_run hclaim tidy_initial (fun k h ↦ ?_) hleaves hrun k hk
    exact absurd h.1 (by simp [initial, GroupStream.pelIds])
  · intro hleaves
    obtain ⟨bs, a, cs, u, v, rfl, hbs, hbad, huv, hcs⟩ := exists_of_not_along hrun hleaves
    have hu := tidy_run (fun b hb ↦ hclaim b (by simp [hb])) tidy_initial hbs
    obtain ⟨k, hk⟩ := exists_stranded_of_step hu.sound hu.exclusive hu.ready huv hbad
    have hv := tidy_step hu huv (hclaim a (by simp))
    exact ⟨k, stranded_run (fun b hb ↦ hclaim b (by simp [hb])) hv hk hcs⟩

end

theorem inHand_of_ended {p : Process} (h : p.phase.Ended) : inHand p = [] := by
  rw [inHand]
  cases hphase : p.phase with
  | stopped => rfl
  | raised => rfl
  | crashed => rfl
  | _ => rw [hphase] at h; exact absurd h id

/-- When every process has ended, what is pending is stranded. -/
theorem stranded_iff_of_ended (h : ∀ p ∈ s.processes, p.phase.Ended) :
    Stranded s k ↔ k ∈ s.stream.pelIds := by
  refine and_iff_left (tally_eq_zero_iff.mpr fun p hp ↦ ?_)
  rw [inHand_of_ended (h p hp), List.count_nil]

/-! ## The second run -/

/-- The process has ended, or runs `run_worker` without a limit and was not told to stop. -/
def Unlimited (p : Process) : Prop :=
  p.phase.Ended ∨ p.running = true ∧ ∃ args, p.role = .worker args ∧ args.maxMessages = none

/-- Nobody is killed or told to stop, and who is started is started without a limit. -/
def Undisturbed : Action → Prop
  | .publish _ => True
  | .spawn _ (.worker args) => args.maxMessages = none
  | .work _ => True
  | .wait _ => True
  | _ => False

instance : DecidablePred Undisturbed
  | .spawn _ (.worker args) => inferInstanceAs (Decidable (args.maxMessages = none))
  | .publish _ | .work _ | .wait _ => inferInstanceAs (Decidable True)
  | .spawn _ .recovery | .claim _ _ _ | .signal _ | .crash _ => inferInstanceAs (Decidable False)

/-- A run of `run_worker_pool` without a limit and crash-free, from where another one has ended
until all its workers are idle: the last of them stops with the last step, and none of them
otherwise than by returning. -/
structure IdleRun (s₁ : Pool) (size : ℕ) (args : RunWorkerArgs) (rest : List Action) (last : ℕ)
    (s₂ : Pool) : Prop where
  unlimited : args.maxMessages = none
  undisturbed : ∀ a ∈ rest, Undisturbed a
  run : run step s₁ (runWorkerPool size args ++ rest ++ [.work last]) = some s₂
  idle : ∀ p ∈ s₂.processes.drop s₁.processes.length, p.phase = .stopped

theorem work_ended {i : ℕ} {p : Process} (hended : p.phase.Ended) : ¬ s.work i p = some s' := by
  rw [work]
  cases hphase : p.phase <;> simp [hphase, Phase.Ended] at hended ⊢

/-- A process that runs without a limit and was not told to stop stays so. -/
theorem work_unlimited {i : ℕ} {p : Process} (hwork : s.work i p = some s')
    (hrunning : p.running = true) {args : RunWorkerArgs} (hargs : p.role = .worker args)
    (hnone : args.maxMessages = none) :
    ∃ p', s'.processes = s.processes.set i p' ∧ p'.running = true ∧ p'.role = .worker args := by
  rw [work, hargs] at hwork
  split at hwork
  · cases hwork
    exact ⟨_, rfl, hrunning, hargs⟩
  · rename_i _ _ args' _ hrole
    cases hrole
    cases hwork
    rw [readMessages, if_neg (by simp [hrunning])]
    split
    · exact ⟨_, rfl, hrunning, hargs⟩
    · dsimp only
      split
      · exact ⟨_, rfl, hrunning, hargs⟩
      · exact ⟨_, rfl, hrunning, hargs⟩
  · cases hwork
    exact ⟨_, rfl, hrunning, hargs⟩
  · cases hwork
    exact ⟨_, rfl, hrunning, hargs⟩
  · rename_i _ _ batch args' _ hrole
    cases hrole
    cases hwork
    rw [report]
    split
    · exact ⟨_, rfl, hrunning, hargs⟩
    · exact ⟨_, rfl, by simp [hrunning, hnone, limitReached], hargs⟩
  · cases hwork

theorem unlimited_step (hall : ∀ p ∈ s.processes, Unlimited p) (ha : Undisturbed a)
    (h : s.step a = some s') : ∀ p ∈ s'.processes, Unlimited p := by
  cases a with
  | publish tick =>
    cases h
    exact hall
  | wait ms =>
    cases h
    exact hall
  | spawn consumerName role =>
    cases h
    intro p hp
    rcases List.mem_append.mp hp with hp | hp
    · exact hall p hp
    · rw [List.mem_singleton.mp hp]
      cases role with
      | worker args => exact Or.inr ⟨rfl, args, rfl, ha⟩
      | recovery => exact absurd ha id
  | work i =>
    obtain ⟨p, hp, hwork⟩ := Option.bind_eq_some_iff.mp h
    rcases hall p (List.mem_of_getElem? hp) with hended | ⟨hrunning, args, hargs, hnone⟩
    · exact absurd hwork (work_ended hended)
    · obtain ⟨p', hset, hrunning', hargs'⟩ := work_unlimited hwork hrunning hargs hnone
      intro q hq
      rw [hset] at hq
      rcases mem_of_mem_set hq with hq | rfl
      · exact hall q hq
      · exact Or.inr ⟨hrunning', args, hargs', hnone⟩
  | _ => exact absurd ha id

theorem isClaim_of_undisturbed (ha : Undisturbed a) : a.isClaim = false := by
  cases a with
  | claim => exact absurd ha id
  | _ => rfl

theorem undisturbed_runWorkerPool {size : ℕ} {args : RunWorkerArgs}
    (hnone : args.maxMessages = none) : ∀ a ∈ runWorkerPool size args, Undisturbed a := by
  intro a ha
  obtain ⟨i, -, rfl⟩ := List.mem_map.mp ha
  exact hnone

/-- A process that has ended takes no part in a step. -/
theorem ended_step (h : s.step a = some s') {i : ℕ} {p : Process} (hp : s.processes[i]? = some p)
    (hended : p.phase.Ended) : s'.processes[i]? = some p := by
  have hset : ∀ {j : ℕ} {q q' : Process}, s.processes[j]? = some q → ¬ q.phase.Ended →
      (s.processes.set j q')[i]? = some p := by
    intro j q q' hq hlive
    have hne : j ≠ i := by
      rintro rfl
      cases hp.symm.trans hq
      exact hlive hended
    rw [List.getElem?_set_ne hne]
    exact hp
  cases effect_of_step h with
  | publish => exact hp
  | wait => exact hp
  | spawn => exact (List.getElem?_append_left (List.getElem?_eq_some_iff.mp hp).1).trans hp
  | quiet a j q q' stream hq hlive => exact hset hq hlive
  | crash j q hq hlive => exact hset hq hlive
  | read j q q' args stream messages hq _ hlooping => exact hset hq (by rw [hlooping]; exact id)
  | claim j q q' minIdleMs count stream messages hq hlooping =>
    exact hset hq (by rw [hlooping]; exact id)
  | write j q batch hq hphase => exact hset hq (by rw [hphase]; exact id)
  | ack j q batch hq hphase => exact hset hq (by rw [hphase]; exact id)

theorem ended_run {as : List Action} (hrun : run step s as = some s') {i : ℕ} {p : Process}
    (hp : s.processes[i]? = some p) (hended : p.phase.Ended) : s'.processes[i]? = some p :=
  run_induction (I := fun s ↦ s.processes[i]? = some p)
    (fun _ _ _ hI h ↦ ended_step h hI hended) hp hrun

/-- A step of a pool without a limit that nobody disturbs leaves none behind. -/
theorem leavesNone_of_unlimited (hall : ∀ p ∈ s.processes, Unlimited p) (ha : Undisturbed a) :
    LeavesNone s a := by
  cases a with
  | work i =>
    intro p hp hcut
    rw [NextReadCut] at hcut
    rcases hall p (List.mem_of_getElem? hp) with hended | ⟨-, args, hargs, hnone⟩
    · split at hcut
      · exact hcut
      · split at hcut
        · exact hcut
        · rw [hcut.1] at hended
          exact hended
    · rw [hargs] at hcut
      simp only [hnone] at hcut
  | crash => exact absurd ha id
  | _ => trivial

/-- An empty read finds nothing undelivered. -/
theorem cursor_eq_of_read_nil (hs : Sound store₀ s) {consumerName : Str} {count : ℤ}
    {stream : TickStream}
    (hread : StreamConsumer.read s.stream consumerName count s.now = .ok (stream, [])) :
    stream.cursor = stream.entries.length := by
  obtain ⟨hcount, hlength⟩ := hs.length_read hread
  obtain ⟨-, -, hentries, hcursor, -⟩ := StreamConsumer.read_eq_ok hread
  have hbacklog : s.backlog = 0 := by
    rw [List.length_nil] at hlength
    omega
  rw [hentries, hcursor, length_nextBatch, hbacklog]
  have := s.stream.cursor_le
  rw [backlog] at hbacklog
  omega

/-- A worker nobody told to stop returns because nothing is undelivered. -/
theorem cursor_eq_of_stopped (hs : Sound store₀ s) {i : ℕ} {p : Process}
    (hp : s.processes[i]? = some p) (hrunning : p.running = true) (hwork : s.work i p = some s')
    {p' : Process} (hp' : s'.processes[i]? = some p') (hstopped : p'.phase = .stopped) :
    s'.stream.cursor = s'.stream.entries.length := by
  have hself : ∀ q, (s.processes.set i q)[i]? = some q := fun q ↦
    List.getElem?_set_self (List.getElem?_eq_some_iff.mp hp).1
  -- the other steps leave the process in a phase that is not `stopped`
  have hother : ∀ q : Process, s'.processes = s.processes.set i q → q.phase = .stopped := by
    intro q hset
    rw [hset, hself] at hp'
    cases hp'
    exact hstopped
  rw [work] at hwork
  split at hwork
  · cases hwork
    exact absurd (hother _ rfl) (by simp)
  · rename_i args _ _
    cases hwork
    revert hother
    rw [readMessages, if_neg (by simp [hrunning])]
    split
    · exact fun hother ↦ absurd (hother _ rfl) (by simp)
    · rename_i stream messages hread
      split
      · rename_i hempty
        subst hempty
        exact fun _ ↦ cursor_eq_of_read_nil hs hread
      · exact fun hother ↦ absurd (hother _ rfl) (by simp)
  · cases hwork
    exact absurd (hother _ rfl) (by simp)
  · cases hwork
    exact absurd (hother _ rfl) (by cases p.role <;> simp)
  · cases hwork
    revert hother
    rw [report]
    split
    · exact fun hother ↦ absurd (hother _ rfl) (by simp)
    · exact fun hother ↦ absurd (hother _ rfl) (by simp)
  · cases hwork

variable {s₁ s₂ : Pool} {first rest : List Action} {size last : ℕ} {args : RunWorkerArgs}

theorem mem_drop_of_getElem? {α : Type*} {l : List α} {n i : ℕ} {x : α} (h : l[i]? = some x)
    (hle : n ≤ i) : x ∈ l.drop n := by
  refine List.mem_iff_getElem?.mpr ⟨i - n, ?_⟩
  rw [List.getElem?_drop, Nat.add_sub_cancel' hle]
  exact h

section

variable (hended : ∀ p ∈ s₁.processes, p.phase.Ended) (hsecond : IdleRun s₁ size args rest last s₂)

include hsecond

theorem IdleRun.undisturbed_all :
    ∀ a ∈ runWorkerPool size args ++ rest ++ [.work last], Undisturbed a := by
  intro a ha
  rcases List.mem_append.mp ha with ha | ha
  · rcases List.mem_append.mp ha with ha | ha
    · exact undisturbed_runWorkerPool hsecond.unlimited a ha
    · exact hsecond.undisturbed a ha
  · rw [List.mem_singleton.mp ha]
    trivial

theorem IdleRun.isClaim :
    ∀ a ∈ runWorkerPool size args ++ rest ++ [.work last], a.isClaim = false :=
  fun a ha ↦ isClaim_of_undisturbed (hsecond.undisturbed_all a ha)

include hended

/-- After a second run every process has ended: the old ones before it, the new ones idle. -/
theorem IdleRun.ended : ∀ p ∈ s₂.processes, p.phase.Ended := by
  intro p hp
  obtain ⟨i, hi⟩ := List.mem_iff_getElem?.mp hp
  rcases lt_or_ge i s₁.processes.length with hlt | hge
  · have hq := List.getElem?_eq_getElem hlt
    have hstill := ended_run hsecond.run hq (hended _ (List.mem_of_getElem? hq))
    cases hi.symm.trans hstill
    exact hended _ (List.mem_of_getElem? hq)
  · rw [hsecond.idle p (mem_drop_of_getElem? hi hge)]
    trivial

/-- Nothing is undelivered after it: its last step is that of a new worker, which stops idle. -/
theorem IdleRun.cursor_eq (ht : Tidy store₀ s₁) : s₂.stream.cursor = s₂.stream.entries.length := by
  obtain ⟨u, hu, hlast⟩ := run_append_eq_some.mp hsecond.run
  rw [run_singleton] at hlast
  have hbefore : ∀ a ∈ runWorkerPool size args ++ rest, Undisturbed a := fun a ha ↦
    hsecond.undisturbed_all a (List.mem_append_left _ ha)
  have htu := tidy_run (fun a ha ↦ isClaim_of_undisturbed (hbefore a ha)) ht hu
  obtain ⟨p, hp, hwork⟩ := Option.bind_eq_some_iff.mp hlast
  have hunlimited : ∀ q ∈ u.processes, Unlimited q :=
    Along.induction (P := fun _ a ↦ Undisturbed a)
      (fun _ _ _ hI hP h ↦ unlimited_step hI hP h) (fun p hp ↦ Or.inl (hended p hp))
      (Along.of_forall hbefore) hu
  obtain ⟨hrunning, args', hargs, hnone⟩ :=
    (hunlimited p (List.mem_of_getElem? hp)).resolve_left fun h ↦ work_ended h hwork
  obtain ⟨p', hset, -, -⟩ := work_unlimited hwork hrunning hargs hnone
  have hp' : s₂.processes[last]? = some p' := by
    rw [hset]
    exact List.getElem?_set_self (List.getElem?_eq_some_iff.mp hp).1
  have hnew : s₁.processes.length ≤ last := by
    by_contra hold
    have hq := List.getElem?_eq_getElem (not_le.mp hold)
    have hended' := hended _ (List.mem_of_getElem? hq)
    cases hp.symm.trans (ended_run hu hq hended')
    exact work_ended hended' hwork
  exact cursor_eq_of_stopped htu.sound hp hrunning hwork hp'
    (hsecond.idle p' (mem_drop_of_getElem? hp' hnew))

/-- It strands nothing, and it brings nothing stranded back. -/
theorem IdleRun.exists_stranded_iff (ht : Tidy store₀ s₁) :
    (∃ k, Stranded s₂ k) ↔ ∃ k, Stranded s₁ k := by
  have hall : ∀ p ∈ s₁.processes, Unlimited p := fun p hp ↦ Or.inl (hended p hp)
  constructor
  · intro hs₂
    by_contra hs₁
    push Not at hs₁
    have hleaves : Along step LeavesNone s₁ _ :=
      Along.of_invariant (fun _ _ _ hI hP h ↦ unlimited_step hI hP h)
        (fun _ _ hI hP ↦ leavesNone_of_unlimited hI hP) hall hsecond.undisturbed_all
    obtain ⟨k, hk⟩ := hs₂
    exact not_stranded_run hsecond.isClaim ht hs₁ hleaves hsecond.run k hk
  · rintro ⟨k, hk⟩
    exact ⟨k, stranded_run hsecond.isClaim ht hk hsecond.run⟩

end

/-- **What is left after a further run.**  After a first run under any schedule and with any
crashes, and a second one without a limit, crash-free and until all its workers are idle: every
entry is written and acknowledged, with nothing pending and nothing undelivered, exactly when no
step of the first run stranded an entry. -/
theorem drained_after_second_run_iff (store₀ : TickStore) (s₁ s₂ : Pool) (first : List Action)
    (hfirst : run step (initial store₀) first = some s₁)
    (hclaim : ∀ a ∈ first, a.isClaim = false) (hended : ∀ p ∈ s₁.processes, p.phase.Ended)
    (size : ℕ) (args : RunWorkerArgs) (rest : List Action) (last : ℕ)
    (hsecond : IdleRun s₁ size args rest last s₂) :
    (s₂.Drained ∧ ∀ k < s₂.stream.entries.length,
        k ∈ ids s₂.history.written ∧ k ∈ s₂.history.acked) ↔
      Along step LeavesNone (initial store₀) first := by
  have ht₁ := tidy_run hclaim tidy_initial hfirst
  have ht₂ := tidy_run hsecond.isClaim ht₁ hsecond.run
  have hpending : (∃ k, Stranded s₂ k) ↔ s₂.stream.pelIds ≠ [] := by
    simp only [stranded_iff_of_ended (hsecond.ended hended), ne_eq,
      List.eq_nil_iff_forall_not_mem, not_forall, not_not]
  rw [← not_iff_not, ← exists_stranded_iff hclaim hfirst,
    ← hsecond.exists_stranded_iff hended ht₁, hpending, not_iff_not]
  refine ⟨fun h ↦ h.1.1, fun hnil ↦ ?_⟩
  have hdrained : s₂.Drained := ⟨hnil, hsecond.cursor_eq hended ht₁⟩
  refine ⟨hdrained, fun k hk ↦ ?_⟩
  have hack := ht₂.sound.acked_of_drained hdrained hk
  exact ⟨(ht₂.sound.acked k hack).1, hack⟩

/-! ### A batch cut at the limit, and a crash with a batch in hand -/

/-- Two entries, and a worker that reads both, is limited to `limit` messages and takes `steps`
steps. -/
def limitedRun (limit : ℤ) (steps : ℕ) : List Action :=
  [.publish (btcTick 1 0), .publish (btcTick 2 0)]
    ++ runWorkerPool 1 { maxMessages := some limit, readBatchSize := 2 }
    ++ List.replicate steps (.work 0)

/-- The state after the actions. -/
def after (as : List Action) : Pool := (run step (initial []) as).getD (initial [])

/-- A further run of one worker, which stops at its first idle read. -/
def idleWorker : List Action := runWorkerPool 1 { maxIdleReads := some 1 } ++ [.work 1, .work 1]

/-- With a limit of two nothing is cut, and the two runs drain the stream. -/
theorem drained_after_second_run_within_limit :
    (after (limitedRun 2 6 ++ idleWorker)).Drained :=
  ((drained_after_second_run_iff [] (after (limitedRun 2 6)) (after (limitedRun 2 6 ++ idleWorker))
    (limitedRun 2 6) (by decide +kernel) (by decide) (by decide +kernel) 1
    { maxIdleReads := some 1 } [.work 1] 1
    ⟨rfl, by decide, by decide +kernel, by decide +kernel⟩).mpr (by decide +kernel)).1

/-- A worker that stops at its limit after one of two messages, and a worker that crashes with both
in hand: a further run without a limit leaves entries pending and unwritten. -/
theorem second_run_leaves_pending :
    (run step (initial []) (limitedRun 1 6) = some (after (limitedRun 1 6)) ∧
      IdleRun (after (limitedRun 1 6)) 1 { maxIdleReads := some 1 } [.work 1] 1
        (after (limitedRun 1 6 ++ idleWorker)) ∧
      (after (limitedRun 1 6 ++ idleWorker)).stream.pelIds = [1] ∧
      ids (after (limitedRun 1 6 ++ idleWorker)).history.written = [0]) ∧
    (run step (initial []) (limitedRun 2 2 ++ [.crash 0])
        = some (after (limitedRun 2 2 ++ [.crash 0])) ∧
      IdleRun (after (limitedRun 2 2 ++ [.crash 0])) 1 { maxIdleReads := some 1 } [.work 1] 1
        (after (limitedRun 2 2 ++ [.crash 0] ++ idleWorker)) ∧
      (after (limitedRun 2 2 ++ [.crash 0] ++ idleWorker)).stream.pelIds = [0, 1] ∧
      ids (after (limitedRun 2 2 ++ [.crash 0] ++ idleWorker)).history.written = []) :=
  ⟨⟨by decide +kernel, ⟨rfl, by decide, by decide +kernel, by decide +kernel⟩, by decide +kernel,
      by decide +kernel⟩,
    by decide +kernel, ⟨rfl, by decide, by decide +kernel, by decide +kernel⟩, by decide +kernel,
    by decide +kernel⟩

end Pool

end PostTrade
