import PostTrade.Bronze.PeriodicFlush

/-!
# The ages of the buffers

`bronze/bronze_writer.py`: the writer keeps two dictionaries, the buffers and the readings of the
clock at which they began, and `flush_due` goes by the second.

`buffer_ages_exact` says that the two stay in step over any sequence of calls, whichever uploads
fail: there is an age for exactly the buffers with lines in them, and it is the time at which the
oldest of these lines was appended.  Until an upload fails, no buffer reaches the size at which it
is flushed.  So `flush_due` finds exactly the partitions with a line that is past its age
(`AgesExact.mem_due_iff`).
-/

set_option autoImplicit false

namespace PostTrade

open Python

namespace BronzeWriter

/-- The readings of the monotonic clock at a call. -/
def Call.readings : Call → List ℚ
  | .append _ _ _ now => [now]
  | .flushDue now => [now]
  | .flush _ => []
  | .flushAll => []

/-- The lines a call appends. -/
def Call.lines : Call → List Line
  | .append symbol rawMessage receivedAt now => [⟨partitionKey symbol receivedAt, rawMessage, now⟩]
  | _ => []

/-- The ages the writer keeps are those of the lines it holds. -/
structure AgesExact (lines : List Line) (w : BronzeWriter) : Prop where
  /-- There is an age for exactly the buffers that are not empty. -/
  mem_keys : ∀ partition, partition ∈ w.bufferStartedAt.keys ↔ w.buffered partition ≠ []
  /-- The lines held are those in the buffer. -/
  held : ∀ partition, (w.held lines partition).map Line.rawMessage = w.buffered partition
  /-- The age is the time at which the oldest of them was appended. -/
  oldest : ∀ partition started, w.bufferStartedAt.get? partition = some started →
    ∃ oldest rest, w.held lines partition = oldest :: rest ∧ started = oldest.bufferedAt ∧
      ∀ line ∈ rest, oldest.bufferedAt ≤ line.bufferedAt

/-- **What is due** is what holds a line that is past its age. -/
theorem AgesExact.mem_due_iff {lines : List Line} {w : BronzeWriter} (h : AgesExact lines w)
    (now : ℚ) (partition : Str) : partition ∈ w.due now ↔
      ∃ line ∈ w.held lines partition, w.flushMaxSeconds ≤ now - line.bufferedAt := by
  rw [mem_due]
  constructor
  · rintro ⟨started, hstarted, hdue, -⟩
    obtain ⟨oldest, rest, hheld, rfl, -⟩ := h.oldest partition started hstarted
    exact ⟨oldest, by rw [hheld]; exact List.mem_cons_self, hdue⟩
  · rintro ⟨line, hline, hdue⟩
    have hlines : w.buffered partition ≠ [] := by
      rw [← h.held partition]
      exact mt List.map_eq_nil_iff.mp (List.ne_nil_of_mem hline)
    obtain ⟨started, hstarted⟩ := Option.ne_none_iff_exists'.mp
      (mt OrderedDict.get?_eq_none_iff.mp (not_not_intro ((h.mem_keys partition).mpr hlines)))
    obtain ⟨oldest, rest, hheld, rfl, hle⟩ := h.oldest partition started hstarted
    refine ⟨oldest.bufferedAt, hstarted, ?_, hlines⟩
    rw [hheld] at hline
    rcases List.mem_cons.mp hline with rfl | hline
    · exact hdue
    · linarith [hle line hline]

variable {client : Client}

/-! ## The lines of a run -/

section Lines

variable {lines : List Line} {w : BronzeWriter}

theorem Timed.call (h : Timed lines w) (c : Call) :
    Timed (lines ++ c.lines) (w.call client c).2 := by
  have hflush : ∀ partitions, Timed (lines ++ []) (w.flushEach client partitions).2 := by
    intro partitions
    rw [List.append_nil]
    exact h.flushEach partitions
  cases c with
  | append symbol rawMessage receivedAt now => exact h.append symbol rawMessage receivedAt now
  | flush partition =>
    cases partition with
    | none => exact hflush _
    | some p => exact hflush _
  | flushDue now => exact hflush _
  | flushAll => exact hflush _

theorem Timed.calls (h : Timed lines w) (cs : List Call) :
    Timed (lines ++ cs.flatMap Call.lines) (BronzeWriter.calls client w cs) := by
  induction cs generalizing lines w with
  | nil => rwa [List.flatMap_nil, List.append_nil]
  | cons c rest ih =>
    rw [List.flatMap_cons, ← List.append_assoc]
    exact ih (h.call c)

/-- The lines are appended at readings of the clock. -/
theorem map_bufferedAt_flatMap_lines (cs : List Call) :
    ((cs.flatMap Call.lines).map Line.bufferedAt).Sublist (cs.flatMap Call.readings) := by
  induction cs with
  | nil => exact .slnil
  | cons c rest ih =>
    rw [List.flatMap_cons, List.flatMap_cons, List.map_append]
    refine List.Sublist.append ?_ ih
    cases c with
    | append symbol rawMessage receivedAt now => exact List.Sublist.refl _
    | flush partition => exact List.Sublist.refl _
    | flushDue now => exact List.nil_sublist _
    | flushAll => exact List.Sublist.refl _

end Lines

/-! ## No age without lines -/

/-- An empty buffer has no age. -/
def Ageless (w : BronzeWriter) : Prop :=
  ∀ partition, w.buffered partition = [] → w.bufferStartedAt.get? partition = none

section Ageless

variable {w : BronzeWriter}

theorem Ageless.buffer (h : w.Ageless) (partition message : Str) (now : ℚ) :
    (w.buffer partition message now).Ageless := by
  intro q hempty
  rw [buffered_buffer] at hempty
  rw [get?_bufferStartedAt_buffer]
  by_cases hq : q = partition
  · rw [if_pos hq] at hempty
    exact absurd hempty (List.append_ne_nil_of_right_ne_nil _ (List.cons_ne_nil _ _))
  · rw [if_neg hq] at hempty
    rw [if_neg fun hnew ↦ hq hnew.1]
    exact h q hempty

theorem Ageless.flushPartition (h : w.Ageless) (partition : Str) :
    (w.flushPartition client partition).2.Ageless := by
  rw [BronzeWriter.flushPartition]
  split
  · exact h
  · split
    · exact h
    · intro q hempty
      rw [OrderedDict.get?_pop]
      split
      · rfl
      · rename_i hq
        rw [buffered, OrderedDict.get?_set, if_neg hq] at hempty
        exact h q hempty

theorem Ageless.calls (h : w.Ageless) (cs : List Call) :
    (BronzeWriter.calls client w cs).Ageless :=
  calls_induction client (fun c _ h ↦ call_induction client
    (fun partition message now _ h ↦ h.buffer partition message now)
    (fun partition _ h ↦ h.flushPartition partition) c h) cs h

/-- In a writer that knows the age of what it holds and no other, the ages are exact. -/
theorem AgesExact.of_timed {lines : List Line} (htimed : Timed lines w) (hageless : w.Ageless)
    (hclock : (lines.map Line.bufferedAt).Pairwise (· ≤ ·)) : AgesExact lines w := by
  refine ⟨fun partition ↦ ⟨fun hkey hempty ↦ ?_, fun hlines ↦ ?_⟩,
    fun partition ↦ map_held (htimed.account partition), fun partition started hstarted ↦ ?_⟩
  · exact OrderedDict.get?_eq_none_iff.mp (hageless partition hempty) hkey
  · obtain ⟨oldest, rest, hheld⟩ :=
      List.exists_cons_of_ne_nil (mt htimed.held_eq_nil_iff.mp hlines)
    have hstarted := htimed.started partition oldest (by rw [hheld]; rfl)
    exact Decidable.not_not.mp (mt OrderedDict.get?_eq_none_iff.mpr (by rw [hstarted]; simp))
  · have hlines : w.held lines partition ≠ [] := by
      intro hempty
      rw [hageless partition (htimed.held_eq_nil_iff.mp hempty)] at hstarted
      cases hstarted
    obtain ⟨oldest, rest, hheld⟩ := List.exists_cons_of_ne_nil hlines
    rw [htimed.started partition oldest (by rw [hheld]; rfl)] at hstarted
    cases hstarted
    exact ⟨oldest, rest, hheld, rfl, bufferedAt_le_of_held hclock hheld⟩

end Ageless

/-! ## The size of the buffers -/

/-- No `put_object` has failed. -/
def Unfailed (client : Client) (w : BronzeWriter) : Prop :=
  ∀ n < w.putCalls, client.raises n = false

instance (client : Client) (w : BronzeWriter) : Decidable (w.Unfailed client) :=
  inferInstanceAs (Decidable (∀ _ < _, _))

/-- Unless a `put_object` has failed, every buffer is below the size at which it is flushed. -/
structure Below (client : Client) (flushMaxLines : ℤ) (w : BronzeWriter) : Prop where
  flushMaxLines_eq : w.flushMaxLines = flushMaxLines
  length_lt : w.Unfailed client → ∀ partition, ((w.buffered partition).length : ℤ) < flushMaxLines

section Below

variable {flushMaxLines : ℤ} {w : BronzeWriter}

/-- A flush after which no `put_object` has failed returns. -/
theorem flushPartition_of_unfailed {partition : Str}
    (h : (w.flushPartition client partition).2.Unfailed client) :
    w.Unfailed client ∧ ∃ w', w.flushPartition client partition = (.ok (), w') := by
  by_cases hlines : w.buffered partition = []
  · rw [flushPartition, if_pos hlines] at h ⊢
    exact ⟨h, w, rfl⟩
  · cases hcall : client.raises w.putCalls with
    | true =>
      -- this is the upload that fails
      rw [flushPartition_of_raises hlines hcall] at h
      have hok := h w.putCalls (Nat.lt_succ_self _)
      rw [hcall] at hok
      cases hok
    | false =>
      obtain ⟨w', hflush, hcalls, -⟩ := flushPartition_of_accepts hlines hcall
      rw [hflush] at h
      exact ⟨fun n hn ↦ h n (by rw [hcalls]; exact Nat.lt_succ_of_lt hn), w', hflush⟩

theorem Below.flushPartition (h : w.Below client flushMaxLines) (hpos : 1 ≤ flushMaxLines)
    (partition : Str) : (w.flushPartition client partition).2.Below client flushMaxLines := by
  refine ⟨(settings_flushPartition client partition w).1.trans h.flushMaxLines_eq,
    fun hunfailed q ↦ ?_⟩
  obtain ⟨hbefore, w', hflush⟩ := flushPartition_of_unfailed hunfailed
  rw [hflush, buffered_flushPartition hflush]
  split
  · exact hpos
  · exact h.length_lt hbefore q

theorem partitionKey_ne_nil (symbol : Str) (receivedAt : Time) :
    partitionKey symbol receivedAt ≠ [] := by
  unfold partitionKey
  simp only [List.append_assoc]
  exact List.append_ne_nil_of_left_ne_nil (by decide) _

/-- A flush of one partition, which has a name. -/
theorem flush_some {partition : Str} (hname : partition ≠ []) :
    (w.flush client (some partition)).2 = (w.flushPartition client partition).2 := by
  rw [flush, if_neg hname, flushEach]
  split
  · rename_i heq
    rw [heq]
  · rename_i heq
    rw [heq]
    rfl

theorem Below.append (h : w.Below client flushMaxLines) (hpos : 1 ≤ flushMaxLines)
    (symbol rawMessage : Str) (receivedAt : Time) (now : ℚ) :
    (w.append client symbol rawMessage receivedAt now).2.Below client flushMaxLines := by
  set partition := partitionKey symbol receivedAt with hpartition
  have hothers : w.Unfailed client → ∀ q, q ≠ partition →
      (((w.buffer partition rawMessage now).buffered q).length : ℤ) < flushMaxLines := by
    intro hunfailed q hq
    rw [buffered_buffer, if_neg hq]
    exact h.length_lt hunfailed q
  rw [BronzeWriter.append]
  split
  · -- the buffer that is full is flushed
    rw [flush_some (partitionKey_ne_nil symbol receivedAt), ← hpartition]
    refine ⟨(settings_flushPartition client partition _).1.trans h.flushMaxLines_eq,
      fun hunfailed q ↦ ?_⟩
    obtain ⟨hbefore, w', hflush⟩ := flushPartition_of_unfailed hunfailed
    rw [hflush, buffered_flushPartition hflush]
    split
    · exact hpos
    · rename_i hq
      exact hothers hbefore q hq
  · rename_i hroom
    refine ⟨h.flushMaxLines_eq, fun hunfailed q ↦ ?_⟩
    by_cases hq : q = partition
    · rw [hq, ← h.flushMaxLines_eq]
      exact not_le.mp hroom
    · exact hothers hunfailed q hq

theorem Below.calls (h : w.Below client flushMaxLines) (hpos : 1 ≤ flushMaxLines)
    (cs : List Call) : (BronzeWriter.calls client w cs).Below client flushMaxLines :=
  calls_induction client (fun c _ h ↦ call_induction_append client
    (fun symbol rawMessage receivedAt now _ h ↦ h.append hpos symbol rawMessage receivedAt now)
    (fun partition _ h ↦ h.flushPartition hpos partition) c h) cs h

end Below

/-- **The ages of the buffers are exact.**  After any calls of a clock that does not go back,
whichever uploads failed: there is an age for exactly the buffers with lines in them, and it is the
time at which the oldest of these lines was appended.  If none failed so far, every buffer holds
fewer lines than are flushed. -/
theorem buffer_ages_exact (client : Client) (flushMaxLines : ℤ) (flushMaxSeconds : ℚ)
    (cs : List Call) (hclock : (cs.flatMap Call.readings).Pairwise (· ≤ ·)) :
    let w := calls client { flushMaxLines, flushMaxSeconds } cs
    AgesExact (cs.flatMap Call.lines) w ∧
      (1 ≤ flushMaxLines → w.Unfailed client →
        ∀ partition, ((w.buffered partition).length : ℤ) < flushMaxLines) := by
  intro w
  refine ⟨?_, fun hpos ↦ ?_⟩
  · have htimed : Timed (cs.flatMap Call.lines) w :=
      (timed_empty flushMaxLines flushMaxSeconds).calls cs
    have hageless : w.Ageless :=
      Ageless.calls (w := { flushMaxLines, flushMaxSeconds }) (fun _ _ ↦ rfl) cs
    exact .of_timed htimed hageless (hclock.sublist (map_bufferedAt_flatMap_lines cs))
  · have hbelow : Below client flushMaxLines { flushMaxLines, flushMaxSeconds } :=
      ⟨rfl, fun _ _ ↦ hpos⟩
    exact (hbelow.calls hpos cs).length_lt

/-- Two lines of one symbol, flushed as there are two of them, and one of another. -/
def threeAppends : List Call :=
  [.append "BTC-USD".toList "first".toList 0 0, .append "ETH-USD".toList "second".toList 0 1,
    .append "BTC-USD".toList "third".toList 0 2]

/-- Only the second symbol has lines in its buffer and an age. -/
theorem ages_of_three_appends :
    let w := calls ⟨fun _ ↦ [], fun _ ↦ false⟩ { flushMaxLines := 2 } threeAppends
    partitionKey "BTC-USD".toList 0 ∉ w.bufferStartedAt.keys ∧
      partitionKey "ETH-USD".toList 0 ∈ w.bufferStartedAt.keys ∧
        ((w.buffered (partitionKey "ETH-USD".toList 0)).length : ℤ) < 2 := by
  intro w
  obtain ⟨hexact, hbelow⟩ := buffer_ages_exact ⟨fun _ ↦ [], fun _ ↦ false⟩ 2 10 threeAppends
    (by decide +kernel)
  refine ⟨?_, (hexact.mem_keys _).mpr (by decide +kernel),
    hbelow (by decide) (by decide +kernel) _⟩
  exact mt (hexact.mem_keys _).mp (not_not_intro (by decide +kernel))

end BronzeWriter

end PostTrade
