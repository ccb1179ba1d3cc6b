import PostTrade.Bronze.BronzeWriter

/-!
# The periodic flush

`bronze/run_bronze_ingestor.py`: a task flushes the partitions that are due at every interval, so
that no line waits for the rest of its object for long.

A `put_object` that raises ends the loop over the partitions that are due, and then the task, whose
exception nobody looks at.  So a partition is flushed at a tick only where the uploads of those due
ahead of it go through, and only where none failed at an earlier tick.  `flushed_iff` says that this
is exactly when no line of the partition is left that is past its age.
-/

set_option autoImplicit false

namespace PostTrade

open Python

namespace BronzeWriter

variable {client : Client}

/-! ## What a flush of distinct partitions empties -/

section Flush

variable {w : BronzeWriter} {partition : Str}

theorem flushPartition_of_raises (hlines : w.buffered partition ≠ [])
    (hraises : client.raises w.putCalls = true) :
    w.flushPartition client partition =
      (.error .clientError, { w with putCalls := w.putCalls + 1 }) := by
  rw [flushPartition, if_neg hlines, if_pos hraises]

theorem flushPartition_of_accepts (hlines : w.buffered partition ≠ [])
    (haccepts : client.raises w.putCalls = false) :
    ∃ w', w.flushPartition client partition = (.ok (), w') ∧ w'.putCalls = w.putCalls + 1 ∧
      ∀ q, w'.buffered q = if q = partition then [] else w.buffered q := by
  have hflush : ∃ w', w.flushPartition client partition = (.ok (), w') ∧
      w'.putCalls = w.putCalls + 1 := by
    rw [flushPartition, if_neg hlines, if_neg (by rw [haccepts]; exact Bool.false_ne_true)]
    exact ⟨_, rfl, rfl⟩
  obtain ⟨w', hflush, hcalls⟩ := hflush
  exact ⟨w', hflush, hcalls, buffered_flushPartition hflush⟩

/-- **What the loop over distinct partitions does.**  It returns where every upload goes through;
and it empties the partitions up to the first upload that does not. -/
theorem flushEach_spec {partitions : List Str} (hnd : partitions.Nodup)
    (hlines : ∀ q ∈ partitions, w.buffered q ≠ []) :
    ((w.flushEach client partitions).1 = .ok () ↔
        ∀ i < partitions.length, client.raises (w.putCalls + i) = false) ∧
      ∀ p, (w.flushEach client partitions).2.buffered p =
        if p ∈ partitions ∧ ∀ i < partitions.idxOf p + 1, client.raises (w.putCalls + i) = false
        then [] else w.buffered p := by
  induction partitions generalizing w with
  | nil => exact ⟨by simp [flushEach], fun p ↦ (if_neg fun h ↦ List.not_mem_nil h.1).symm⟩
  | cons q rest ih =>
    obtain ⟨hq, hrest⟩ := List.nodup_cons.mp hnd
    have hlinesq := hlines q List.mem_cons_self
    cases hcall : client.raises w.putCalls with
    | true =>
      rw [flushEach, flushPartition_of_raises hlinesq hcall]
      refine ⟨iff_of_false (by simp) fun h ↦ ?_, fun p ↦ (if_neg fun h ↦ ?_).symm⟩
      · exact absurd (h 0 (by simp)) (by simp [hcall])
      · exact absurd (h.2 0 (Nat.succ_pos _)) (by simp [hcall])
    | false =>
      obtain ⟨w', hflush, hcalls, hbuffered⟩ := flushPartition_of_accepts hlinesq hcall
      obtain ⟨hok, hleft⟩ := ih (w := w') hrest fun p hp ↦ by
        rw [hbuffered, if_neg (by rintro rfl; exact hq hp)]
        exact hlines p (List.mem_cons_of_mem _ hp)
      have hshift : ∀ n, (∀ i < n + 1, client.raises (w.putCalls + i) = false) ↔
          ∀ i < n, client.raises (w'.putCalls + i) = false := by
        intro n
        rw [Nat.forall_lt_succ_left, Nat.add_zero, and_iff_right hcall, hcalls]
        simp only [Nat.add_assoc, Nat.add_comm 1]
      rw [flushEach, hflush]
      refine ⟨by rw [List.length_cons, hshift]; exact hok, fun p ↦ (hleft p).trans ?_⟩
      rw [hbuffered]
      by_cases hp : p = q
      · subst hp
        rw [if_pos rfl, ite_self, if_pos]
        refine ⟨List.mem_cons_self, ?_⟩
        rw [List.idxOf_cons_self, hshift]
        exact fun i hi ↦ absurd hi (Nat.not_lt_zero i)
      · rw [if_neg hp]
        refine if_congr ?_ rfl rfl
        rw [List.idxOf_cons_ne _ (Ne.symm hp), hshift, List.mem_cons, or_iff_right hp]

end Flush

/-! ## What is due -/

/-- The partitions `flush_due` finds due, in the order it comes to them. -/
def due (now : ℚ) (w : BronzeWriter) : List Str :=
  (w.bufferStartedAt.items.filter fun item ↦
    now - item.2 ≥ w.flushMaxSeconds ∧ w.buffered item.1 ≠ []).map Prod.fst

/-- All that is due at the time is uploaded: none of the calls `flush_due` comes to raises. -/
def AllAccepted (client : Client) (now : ℚ) (w : BronzeWriter) : Prop :=
  ∀ i < (w.due now).length, client.raises (w.putCalls + i) = false

/-- What is due ahead of the partition is uploaded. -/
def AheadAccepted (client : Client) (now : ℚ) (w : BronzeWriter) (partition : Str) : Prop :=
  ∀ i < (w.due now).idxOf partition, client.raises (w.putCalls + i) = false

/-- `put_object` succeeds for the partition: at the call `flush_due` makes for it, once it has
uploaded what is due ahead of it. -/
def Accepted (client : Client) (now : ℚ) (w : BronzeWriter) (partition : Str) : Prop :=
  client.raises (w.putCalls + (w.due now).idxOf partition) = false

instance (client : Client) (now : ℚ) (w : BronzeWriter) :
    Decidable (w.AllAccepted client now) :=
  inferInstanceAs (Decidable (∀ _ < _, _))

instance (client : Client) (now : ℚ) (w : BronzeWriter) (partition : Str) :
    Decidable (w.AheadAccepted client now partition) :=
  inferInstanceAs (Decidable (∀ _ < _, _))

instance (client : Client) (now : ℚ) (w : BronzeWriter) (partition : Str) :
    Decidable (w.Accepted client now partition) :=
  inferInstanceAs (Decidable (_ = _))

section Due

variable {now : ℚ} {w : BronzeWriter} {partition : Str}

theorem mem_due : partition ∈ w.due now ↔ ∃ started,
    w.bufferStartedAt.get? partition = some started ∧ w.flushMaxSeconds ≤ now - started ∧
      w.buffered partition ≠ [] := by
  rw [due, List.mem_map]
  constructor
  · rintro ⟨⟨_, started⟩, hitem, rfl⟩
    obtain ⟨hitem, hdue⟩ := List.mem_filter.mp hitem
    exact ⟨started, OrderedDict.get?_eq_some_iff.mpr hitem, of_decide_eq_true hdue⟩
  · rintro ⟨started, hstarted, hdue⟩
    exact ⟨(partition, started), List.mem_filter.mpr
      ⟨OrderedDict.get?_eq_some_iff.mp hstarted, decide_eq_true hdue⟩, rfl⟩

theorem nodup_due : (w.due now).Nodup :=
  w.bufferStartedAt.nodup.sublist (List.filter_sublist.map _)

theorem buffered_ne_nil_of_mem_due (h : partition ∈ w.due now) : w.buffered partition ≠ [] := by
  obtain ⟨-, -, -, hlines⟩ := mem_due.mp h
  exact hlines

/-- A flush of what is due returns where all of it is accepted. -/
theorem flushDue_isOk_iff :
    (w.flushDue client now).1.isOk = true ↔ w.AllAccepted client now := by
  refine Iff.trans ?_ (flushEach_spec nodup_due fun _ ↦ buffered_ne_nil_of_mem_due).1
  rw [flushDue, due]
  cases (w.flushEach client _).1 with
  | ok _ => exact iff_of_true rfl rfl
  | error _ => exact iff_of_false Bool.false_ne_true (by simp)

/-- **A flush of what is due** empties a partition that is due, reached and accepted, and no
other. -/
theorem buffered_flushDue : (w.flushDue client now).2.buffered partition =
    if partition ∈ w.due now ∧ w.AheadAccepted client now partition ∧
        w.Accepted client now partition
    then [] else w.buffered partition := by
  refine ((flushEach_spec nodup_due fun _ ↦ buffered_ne_nil_of_mem_due).2 partition).trans ?_
  refine if_congr (and_congr_right fun _ ↦ ?_) rfl rfl
  exact Nat.forall_lt_succ_right

end Due

/-! ## How long lines are held -/

/-- A message that was appended to a partition, and when. -/
structure Line where
  partition : Str
  rawMessage : Str
  bufferedAt : ℚ

/-- The lines of a partition the writer holds: of those appended to it, the ones that are not in its
objects. -/
def held (lines : List Line) (w : BronzeWriter) (partition : Str) : List Line :=
  (lines.filter fun l ↦ l.partition = partition).drop (w.stored partition).length

/-- The writer has what was appended to it, and knows the age of the oldest line it holds of a
partition. -/
structure Timed (lines : List Line) (w : BronzeWriter) : Prop where
  account : ∀ partition, w.account partition =
    (lines.filter fun l ↦ l.partition = partition).map Line.rawMessage
  started : ∀ partition oldest, (w.held lines partition).head? = some oldest →
    w.bufferStartedAt.get? partition = some oldest.bufferedAt

section Timed

variable {lines : List Line} {w : BronzeWriter}

theorem timed_empty (flushMaxLines : ℤ) (flushMaxSeconds : ℚ) :
    Timed [] { flushMaxLines, flushMaxSeconds } :=
  ⟨fun _ ↦ rfl, fun _ oldest h ↦ by simp [held] at h⟩

/-- The lines held are those buffered. -/
theorem map_held {partition : Str} (h : w.account partition =
    (lines.filter fun l ↦ l.partition = partition).map Line.rawMessage) :
    (w.held lines partition).map Line.rawMessage = w.buffered partition := by
  rw [held, List.map_drop, ← h, account, List.drop_left]

/-- The line held longest is the oldest, where the clock does not go back. -/
theorem bufferedAt_le_of_held (hclock : (lines.map Line.bufferedAt).Pairwise (· ≤ ·))
    {partition : Str} {oldest : Line} {rest : List Line}
    (hheld : w.held lines partition = oldest :: rest) :
    ∀ line ∈ rest, oldest.bufferedAt ≤ line.bufferedAt := by
  have hsub : (w.held lines partition).Sublist lines :=
    (List.drop_sublist _ _).trans List.filter_sublist
  have hsorted := hclock.sublist (hsub.map Line.bufferedAt)
  rw [hheld] at hsorted
  exact fun line hline ↦ List.rel_of_pairwise_cons hsorted (List.mem_map_of_mem hline)

theorem Timed.held_eq_nil_iff (h : Timed lines w) {partition : Str} :
    w.held lines partition = [] ↔ w.buffered partition = [] := by
  rw [← map_held (h.account partition), List.map_eq_nil_iff]

/-- Flushing a partition empties it, or leaves it alone; the others it leaves alone. -/
theorem flushPartition_cases (client : Client) (partition : Str) (w : BronzeWriter) (q : Str) :
    (w.flushPartition client partition).2.buffered q = [] ∨
      (w.flushPartition client partition).2.stored q = w.stored q ∧
        (w.flushPartition client partition).2.bufferStartedAt.get? q =
          w.bufferStartedAt.get? q := by
  rw [flushPartition]
  split
  · exact .inr ⟨rfl, rfl⟩
  · split
    · exact .inr ⟨rfl, rfl⟩
    · by_cases hq : q = partition
      · refine .inl ?_
        rw [buffered, OrderedDict.get?_set, if_pos hq]
        rfl
      · refine .inr ⟨?_, ?_⟩
        · simp [stored, Ne.symm hq]
        · rw [OrderedDict.get?_pop, if_neg hq]

theorem Timed.flushPartition (h : Timed lines w) (partition : Str) :
    Timed lines (w.flushPartition client partition).2 := by
  have haccount : ∀ q, (w.flushPartition client partition).2.account q =
      (lines.filter fun l ↦ l.partition = q).map Line.rawMessage :=
    fun q ↦ ((flushPartition_conserves client partition w).account q).trans (h.account q)
  refine ⟨haccount, fun q oldest holdest ↦ ?_⟩
  rcases flushPartition_cases client partition w q with hempty | ⟨hstored, hstarted⟩
  · rw [← map_held (haccount q), List.map_eq_nil_iff] at hempty
    rw [hempty] at holdest
    cases holdest
  · rw [hstarted]
    rw [held, hstored] at holdest
    exact h.started q oldest holdest

/-- A message that is buffered is held. -/
theorem Timed.held_buffer (h : Timed lines w) (partition message : Str) (now : ℚ) (q : Str) :
    (w.buffer partition message now).held (lines ++ [⟨partition, message, now⟩]) q =
      w.held lines q ++ if partition = q then [⟨partition, message, now⟩] else [] := by
  have hlength : (w.stored q).length ≤ (lines.filter fun l ↦ l.partition = q).length := by
    rw [← List.length_map Line.rawMessage, ← h.account, BronzeWriter.account, List.length_append]
    exact Nat.le_add_right _ _
  show ((lines ++ _).filter _).drop (w.stored q).length = _
  rw [List.filter_append, List.drop_append_of_le_length hlength, held]
  by_cases hq : partition = q
  · simp [hq]
  · simp [hq]

theorem Timed.buffer (h : Timed lines w) (partition message : Str) (now : ℚ) :
    Timed (lines ++ [⟨partition, message, now⟩]) (w.buffer partition message now) := by
  refine ⟨fun q ↦ ?_, fun q oldest holdest ↦ ?_⟩
  · rw [account_buffer, h.account, List.filter_append, List.map_append]
    by_cases hq : partition = q
    · simp [hq]
    · simp [hq]
  · rw [h.held_buffer] at holdest
    rw [get?_bufferStartedAt_buffer]
    by_cases hq : partition = q
    · subst hq
      rw [if_pos rfl] at holdest
      by_cases hempty : w.buffered partition = []
      · -- the first line of a new buffer sets its age
        rw [h.held_eq_nil_iff.mpr hempty] at holdest
        cases holdest
        rw [if_pos ⟨rfl, hempty⟩]
      · rw [if_neg fun hnew ↦ hempty hnew.2]
        refine h.started partition oldest ?_
        rwa [List.head?_append_of_ne_nil _ (mt h.held_eq_nil_iff.mp hempty)] at holdest
    · rw [if_neg hq, List.append_nil] at holdest
      rw [if_neg fun hnew ↦ hq hnew.1.symm]
      exact h.started q oldest holdest

theorem Timed.flushEach (h : Timed lines w) (partitions : List Str) :
    Timed lines (w.flushEach client partitions).2 :=
  flushEach_induction client (fun partition _ h ↦ h.flushPartition partition) partitions h

theorem Timed.flushDue (h : Timed lines w) (now : ℚ) :
    Timed lines (w.flushDue client now).2 := h.flushEach _

theorem Timed.append (h : Timed lines w) (symbol rawMessage : Str) (receivedAt : Time) (now : ℚ) :
    Timed (lines ++ [⟨partitionKey symbol receivedAt, rawMessage, now⟩])
      (w.append client symbol rawMessage receivedAt now).2 := by
  have hbuffer := h.buffer (partitionKey symbol receivedAt) rawMessage now
  rw [BronzeWriter.append]
  split
  · exact hbuffer.flushEach _
  · exact hbuffer

end Timed

/-- No flush changes the settings. -/
theorem settings_flushPartition (client : Client) (partition : Str) (w : BronzeWriter) :
    (w.flushPartition client partition).2.flushMaxLines = w.flushMaxLines ∧
      (w.flushPartition client partition).2.flushMaxSeconds = w.flushMaxSeconds := by
  rw [flushPartition]
  split
  · exact ⟨rfl, rfl⟩
  · split
    · exact ⟨rfl, rfl⟩
    · exact ⟨rfl, rfl⟩

theorem flushMaxSeconds_call (c : Call) (w : BronzeWriter) :
    (w.call client c).2.flushMaxSeconds = w.flushMaxSeconds :=
  call_induction client (P := fun w' ↦ w'.flushMaxSeconds = w.flushMaxSeconds)
    (fun _ _ _ _ h ↦ h)
    (fun partition w' h ↦ (settings_flushPartition client partition w').2.trans h) c rfl

/-- No line of the partition has been held for longer than `flush_max_seconds`. -/
def NoneOlder (lines : List Line) (now : ℚ) (w : BronzeWriter) (partition : Str) : Prop :=
  ∀ line ∈ w.held lines partition, now - line.bufferedAt ≤ w.flushMaxSeconds

instance (lines : List Line) (now : ℚ) (w : BronzeWriter) (partition : Str) :
    Decidable (w.NoneOlder lines now partition) :=
  inferInstanceAs (Decidable (∀ _ ∈ _, _))

section NoneOlder

variable {lines : List Line} {w w' : BronzeWriter} {now : ℚ} {partition : Str}

theorem noneOlder_of_buffered_eq_nil (htimed : Timed lines w) (h : w.buffered partition = []) :
    w.NoneOlder lines now partition := by
  intro line hline
  rw [htimed.held_eq_nil_iff.mpr h] at hline
  cases hline

/-- Writers that had the same lines and hold as many of a partition hold the same ones. -/
theorem noneOlder_congr (htimed : Timed lines w) (htimed' : Timed lines w')
    (hmax : w'.flushMaxSeconds = w.flushMaxSeconds)
    (hbuffered : w'.buffered partition = w.buffered partition) :
    w'.NoneOlder lines now partition ↔ w.NoneOlder lines now partition := by
  have haccount : w'.stored partition ++ w'.buffered partition =
      w.stored partition ++ w.buffered partition :=
    (htimed'.account partition).trans (htimed.account partition).symm
  rw [hbuffered, List.append_left_inj] at haccount
  rw [NoneOlder, NoneOlder, hmax, held, held, haccount]

/-- A partition that holds a line past its age is due. -/
theorem mem_due_of_not_noneOlder
    (htimed : Timed lines w) (hclock : (lines.map Line.bufferedAt).Pairwise (· ≤ ·))
    (hold : ¬ w.NoneOlder lines now partition) : partition ∈ w.due now := by
  rw [NoneOlder] at hold
  simp only [not_forall, not_le] at hold
  obtain ⟨line, hline, hage⟩ := hold
  obtain ⟨oldest, rest, hheld⟩ := List.exists_cons_of_ne_nil (List.ne_nil_of_mem hline)
  -- the oldest line is as old as this one, and its age is the age of the buffer
  have hle : oldest.bufferedAt ≤ line.bufferedAt := by
    rw [hheld] at hline
    rcases List.mem_cons.mp hline with rfl | hline
    · exact le_rfl
    · exact bufferedAt_le_of_held hclock hheld line hline
  refine mem_due.mpr ⟨oldest.bufferedAt, htimed.started partition oldest (by rw [hheld]; rfl),
    by linarith, ?_⟩
  exact mt htimed.held_eq_nil_iff.mpr (List.ne_nil_of_mem hline)

end NoneOlder

end BronzeWriter

/-! ## The task -/

open BronzeWriter

/-- A bronze writer with the task that flushes what is due. -/
structure PeriodicFlush where
  writer : BronzeWriter
  /-- No exception has ended the task. -/
  running : Bool := true

namespace PeriodicFlush

/-- What happens while the ingestor runs: a message is appended, or an interval of the task is
over. -/
inductive Event
  | append (symbol rawMessage : Str) (receivedAt : Time) (now : ℚ)
  | tick (now : ℚ)

/-- The reading of the monotonic clock. -/
def Event.now : Event → ℚ
  | .append _ _ _ now => now
  | .tick now => now

/-- The lines appended by the events. -/
def lines (events : List Event) : List Line :=
  events.filterMap fun
    | .append symbol rawMessage receivedAt now =>
      some ⟨partitionKey symbol receivedAt, rawMessage, now⟩
    | .tick _ => none

variable (client : Client)

/-- An exception of `append` goes to the ingestor and leaves the task alone; one of `flush_due` ends
the task. -/
def step (s : PeriodicFlush) : Event → PeriodicFlush
  | .append symbol rawMessage receivedAt now =>
    { s with writer := (s.writer.append client symbol rawMessage receivedAt now).2 }
  | .tick now =>
    if s.running then
      let (result, writer) := s.writer.flushDue client now
      { writer, running := result.isOk }
    else s

/-- The state after the events. -/
def run (flushMaxLines : ℤ) (flushMaxSeconds : ℚ) (events : List Event) : PeriodicFlush :=
  events.foldl (step client) { writer := { flushMaxLines, flushMaxSeconds } }

section Run

variable {client} {flushMaxLines : ℤ} {flushMaxSeconds : ℚ}

theorem run_concat (events : List Event) (e : Event) :
    run client flushMaxLines flushMaxSeconds (events ++ [e]) =
      step client (run client flushMaxLines flushMaxSeconds events) e := by
  rw [run, List.foldl_append]
  rfl

/-- The lines are appended in the order of the clock. -/
theorem map_bufferedAt_lines (events : List Event) :
    ((lines events).map Line.bufferedAt).Sublist (events.map Event.now) := by
  induction events with
  | nil => exact .slnil
  | cons e rest ih =>
    cases e with
    | append symbol rawMessage receivedAt now => exact ih.cons_cons now
    | tick now => exact ih.cons now

theorem lines_append (events more : List Event) :
    lines (events ++ more) = lines events ++ lines more := List.filterMap_append

/-- The writer of a run knows the age of what it holds. -/
theorem timed_run (events : List Event) :
    Timed (lines events) (run client flushMaxLines flushMaxSeconds events).writer := by
  induction events using List.reverseRecOn with
  | nil => exact timed_empty flushMaxLines flushMaxSeconds
  | append_singleton events e ih =>
    rw [run_concat, lines_append]
    cases e with
    | append symbol rawMessage receivedAt now =>
      exact ih.append symbol rawMessage receivedAt now
    | tick now =>
      rw [show lines [.tick now] = [] from rfl, List.append_nil, step]
      split
      · exact ih.flushDue now
      · exact ih

/-- At no tick of the events did the upload of a partition that was due fail. -/
def Unfailing (client : Client) (flushMaxLines : ℤ) (flushMaxSeconds : ℚ) (events : List Event) :
    Prop :=
  ∀ before now after, events = before ++ .tick now :: after →
    (run client flushMaxLines flushMaxSeconds before).writer.AllAccepted client now

theorem unfailing_concat_iff {events : List Event} {e : Event} :
    Unfailing client flushMaxLines flushMaxSeconds (events ++ [e]) ↔
      Unfailing client flushMaxLines flushMaxSeconds events ∧ ∀ now, e = .tick now →
        (run client flushMaxLines flushMaxSeconds events).writer.AllAccepted client now := by
  constructor
  · intro h
    refine ⟨fun before now after heq ↦ h before now (after ++ [e]) ?_, fun now he ↦ ?_⟩
    · rw [heq, List.append_assoc, List.cons_append]
    · exact h events now [] (by rw [he])
  · rintro ⟨hbefore, hlast⟩ before now after heq
    rcases List.eq_nil_or_concat after with rfl | ⟨init, last, rfl⟩
    · obtain ⟨rfl, he⟩ := List.append_inj' heq rfl
      exact hlast now (List.singleton_inj.mp he)
    · rw [List.concat_eq_append, ← List.cons_append, ← List.append_assoc] at heq
      exact hbefore before now init (List.append_inj' heq rfl).1

/-- **The task runs** exactly as long as no tick has come to an upload that fails. -/
theorem running_iff (events : List Event) :
    (run client flushMaxLines flushMaxSeconds events).running = true ↔
      Unfailing client flushMaxLines flushMaxSeconds events := by
  induction events using List.reverseRecOn with
  | nil => exact iff_of_true rfl fun before now after heq ↦ by simp at heq
  | append_singleton events e ih =>
    rw [run_concat, unfailing_concat_iff, ← ih]
    cases e with
    | append symbol rawMessage receivedAt now =>
      exact (and_iff_left fun _ heq ↦ by cases heq).symm
    | tick now =>
      rw [step]
      split
      · rename_i hrunning
        rw [and_iff_right hrunning]
        refine flushDue_isOk_iff.trans ⟨fun h now' heq ↦ ?_, fun h ↦ h now rfl⟩
        cases heq
        exact h
      · rename_i hended
        exact iff_of_false hended fun h ↦ hended h.1

theorem flushMaxSeconds_run (events : List Event) :
    (run client flushMaxLines flushMaxSeconds events).writer.flushMaxSeconds = flushMaxSeconds := by
  induction events using List.reverseRecOn with
  | nil => rfl
  | append_singleton events e ih =>
    rw [run_concat]
    cases e with
    | append symbol rawMessage receivedAt now =>
      exact (flushMaxSeconds_call (.append symbol rawMessage receivedAt now) _).trans ih
    | tick now =>
      rw [step]
      split
      · exact (flushMaxSeconds_call (.flushDue now) _).trans ih
      · exact ih

/-- A tick empties the partitions a flush of what is due empties, if the task still runs. -/
theorem buffered_tick (s : PeriodicFlush) (now : ℚ) (partition : Str) :
    (step client s (.tick now)).writer.buffered partition =
      if s.running = true ∧ partition ∈ s.writer.due now ∧
          s.writer.AheadAccepted client now partition ∧ s.writer.Accepted client now partition
      then [] else s.writer.buffered partition := by
  rw [step]
  split
  · rename_i hrunning
    exact buffered_flushDue.trans (if_congr (and_iff_right hrunning).symm rfl rfl)
  · rename_i hended
    exact (if_neg fun h ↦ hended h.1).symm

/-- **When a tick leaves no line that is past its age.**  At any tick of a run, if `put_object`
succeeds for a partition: no line of it older than `flush_max_seconds` is left exactly when there
was none, or when no upload failed at an earlier tick and those due ahead of it at this one go
through. -/
theorem flushed_iff (client : Client) (flushMaxLines : ℤ) (flushMaxSeconds : ℚ)
    (events : List Event) (now : ℚ)
    (hclock : ((events ++ [Event.tick now]).map Event.now).Pairwise (· ≤ ·)) (partition : Str) :
    let s := run client flushMaxLines flushMaxSeconds events
    let s' := run client flushMaxLines flushMaxSeconds (events ++ [.tick now])
    s.writer.Accepted client now partition →
      (s'.writer.NoneOlder (lines events) now partition ↔
        s.writer.NoneOlder (lines events) now partition ∨
          Unfailing client flushMaxLines flushMaxSeconds events ∧
            s.writer.AheadAccepted client now partition) := by
  intro s s' haccepted
  have htimed : Timed (lines events) s.writer := timed_run events
  have htimed' : Timed (lines events) s'.writer := by
    have h : Timed (lines (events ++ [.tick now])) s'.writer := timed_run (events ++ [.tick now])
    rwa [lines_append, show lines [Event.tick now] = [] from rfl, List.append_nil] at h
  have hmax : s'.writer.flushMaxSeconds = s.writer.flushMaxSeconds := by
    rw [flushMaxSeconds_run, flushMaxSeconds_run]
  have hsorted : ((lines events).map Line.bufferedAt).Pairwise (· ≤ ·) := by
    rw [List.map_append] at hclock
    exact hclock.sublist ((map_bufferedAt_lines events).trans (List.sublist_append_left _ _))
  have hstep : s' = step client s (.tick now) := run_concat events (.tick now)
  have hbuffered := @buffered_tick client s now partition
  rw [← hstep] at hbuffered
  by_cases hnone : s.writer.NoneOlder (lines events) now partition
  · -- nothing is appended at a tick
    refine iff_of_true ?_ (.inl hnone)
    split at hbuffered
    · exact noneOlder_of_buffered_eq_nil htimed' hbuffered
    · exact (noneOlder_congr htimed htimed' hmax hbuffered).mpr hnone
  · have hdue : partition ∈ s.writer.due now := mem_due_of_not_noneOlder htimed hsorted hnone
    rw [or_iff_right hnone, ← running_iff]
    split at hbuffered
    · rename_i hreached
      exact iff_of_true (noneOlder_of_buffered_eq_nil htimed' hbuffered)
        ⟨hreached.1, hreached.2.2.1⟩
    · rename_i hmissed
      refine iff_of_false (mt (noneOlder_congr htimed htimed' hmax hbuffered).mp hnone) fun h ↦ ?_
      exact hmissed ⟨h.1, hdue, h.2, haccepted⟩

end Run

/-! ### Two partitions due at one tick -/

/-- A client of which the calls told raise. -/
def failsAt (calls : List ℕ) : Client where
  uuid n := (Nat.repr n).toList
  raises n := calls.contains n

/-- A line of each of two symbols. -/
def twoLines : List Event :=
  [.append "BTC-USD".toList "first".toList 0 0, .append "ETH-USD".toList "second".toList 0 0]

/-- Where both uploads go through, no old line is left. -/
theorem flushed_of_no_failure :
    (run (failsAt []) 200 10 (twoLines ++ [.tick 11])).writer.NoneOlder (lines twoLines) 11
      (partitionKey "ETH-USD".toList 0) := by
  have hrunning : (run (failsAt []) 200 10 twoLines).running = true := rfl
  refine (flushed_iff (failsAt []) 200 10 twoLines 11 (by decide +kernel)
    (partitionKey "ETH-USD".toList 0) (by decide +kernel)).mpr (.inr ⟨?_, by decide +kernel⟩)
  exact (running_iff twoLines).mp hrunning

/-- The upload of the first fails: the line of the second is left at this tick, and at the next one
too, at which every upload would succeed. -/
theorem left_after_failure :
    let eth := partitionKey "ETH-USD".toList 0
    let s := run (failsAt [0]) 200 10 twoLines
    let s₁ := run (failsAt [0]) 200 10 (twoLines ++ [.tick 11])
    let s₂ := run (failsAt [0]) 200 10 (twoLines ++ [.tick 11, .tick 13])
    ((twoLines ++ [Event.tick 11, .tick 13]).map Event.now).Pairwise (· ≤ ·) ∧
      s.writer.Accepted (failsAt [0]) 11 eth ∧ ¬ s₁.writer.NoneOlder (lines twoLines) 11 eth ∧
        s₁.writer.AllAccepted (failsAt [0]) 13 ∧ s₁.writer.Accepted (failsAt [0]) 13 eth ∧
          ¬ s₂.writer.NoneOlder (lines twoLines) 13 eth := by
  decide +kernel

end PeriodicFlush

end PostTrade
