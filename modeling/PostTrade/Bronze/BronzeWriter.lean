import PostTrade.Bronze.ObjectStore
import PostTrade.Lib.Datetime
import PostTrade.Lib.Dict

/-!
# The bronze writer

`bronze/bronze_writer.py`: raw messages are buffered by partition, a partition being a symbol, a
date and an hour, and written out as one object of lines when there are enough of them, when they
are old enough, or when asked to.

A `put_object` may raise, and stores nothing when it does; the exception ends the call of the writer
it strikes, which may be in the middle of a loop over partitions.  Which calls raise, and the names
`uuid4` draws for them, is a `Client`; `time.monotonic` is an argument of the calls that read it.

`conserves_messages` is the law of the writer, over any sequence of calls, whichever of them raise:
for each partition the lines of the objects it has put, followed by those it holds, are the messages
appended to the partition.
-/

set_option autoImplicit false

namespace PostTrade

open Python

/-- What `put_object` and `uuid4` do, by the number of the call. -/
structure Client where
  uuid : ℕ → Str
  raises : ℕ → Bool

/-- The exception of `put_object`. -/
inductive ClientError
  | clientError
  deriving DecidableEq, Repr

/-- An object the writer has put: the partition, the name, and the lines in it. -/
structure Put where
  partition : Str
  uuid : Str
  lines : List Str
  deriving DecidableEq

/-- `"\n".join(lines) + "\n"`. -/
def ndjson (lines : List Str) : Str := ['\n'].intercalate lines ++ ['\n']

/-- Every line is ended by a newline. -/
theorem ndjson_eq {lines : List Str} (h : lines ≠ []) :
    ndjson lines = lines.flatMap fun line ↦ line ++ ['\n'] := by
  induction lines with
  | nil => exact absurd rfl h
  | cons line rest ih =>
    cases rest with
    | nil => simp [ndjson, List.intercalate]
    | cons next rest =>
      rw [List.flatMap_cons, ← ih (List.cons_ne_nil _ _), ndjson, ndjson,
        List.intercalate_cons_cons]
      simp only [List.append_assoc]

/-- The object of a put. -/
def Put.object (p : Put) : BronzeObject where
  key := p.partition ++ '/' :: p.uuid ++ ".ndjson".toList
  body := some (ndjson p.lines)

/-- `_partition_key`. -/
def partitionKey (symbol : Str) (receivedAt : Time) : Str :=
  "ticks/symbol=".toList ++ symbol ++ "/date=".toList ++ Datetime.dateText receivedAt
    ++ "/hour=".toList ++ Datetime.hourText receivedAt

/-- The state of a `BronzeWriter`, with the objects it has put. -/
structure BronzeWriter where
  flushMaxLines : ℤ := 200
  flushMaxSeconds : ℚ := 10
  buffers : OrderedDict Str (List Str) := .empty
  bufferStartedAt : OrderedDict Str ℚ := .empty
  totalLinesFlushed : ℕ := 0
  totalObjectsFlushed : ℕ := 0
  /-- How often `put_object` was called. -/
  putCalls : ℕ := 0
  /-- The objects put, in order. -/
  puts : List Put := []

namespace BronzeWriter

variable (client : Client)

/-- The lines a partition holds back. -/
def buffered (w : BronzeWriter) (partition : Str) : List Str :=
  (w.buffers.get? partition).getD []

/-- The body of the loop of `flush`. -/
def flushPartition (partition : Str) (w : BronzeWriter) : Except ClientError Unit × BronzeWriter :=
  let lines := w.buffered partition
  if lines = [] then (.ok (), w)
  else if client.raises w.putCalls then
    (.error .clientError, { w with putCalls := w.putCalls + 1 })
  else
    (.ok (), { w with
      putCalls := w.putCalls + 1
      puts := w.puts ++ [{ partition, uuid := client.uuid w.putCalls, lines }]
      totalLinesFlushed := w.totalLinesFlushed + lines.length
      totalObjectsFlushed := w.totalObjectsFlushed + 1
      buffers := w.buffers.set partition []
      bufferStartedAt := w.bufferStartedAt.pop partition })

/-- The loop over partitions, which an exception ends. -/
def flushEach : List Str → BronzeWriter → Except ClientError Unit × BronzeWriter
  | [], w => (.ok (), w)
  | p :: rest, w =>
    match w.flushPartition client p with
    | (.error e, w) => (.error e, w)
    | (.ok (), w) => flushEach rest w

/-- `flush`: an empty name, like none, means all partitions. -/
def flush (partition : Option Str) (w : BronzeWriter) : Except ClientError Unit × BronzeWriter :=
  match partition with
  | none => w.flushEach client w.buffers.keys
  | some p => w.flushEach client (if p = [] then w.buffers.keys else [p])

/-- `flush_due`, at a reading of the monotonic clock. -/
def flushDue (now : ℚ) (w : BronzeWriter) : Except ClientError Unit × BronzeWriter :=
  let due := (w.bufferStartedAt.items.filter fun item ↦
    now - item.2 ≥ w.flushMaxSeconds ∧ w.buffered item.1 ≠ []).map Prod.fst
  w.flushEach client due

/-- `flush_all`. -/
def flushAll (w : BronzeWriter) : Except ClientError Unit × BronzeWriter := w.flush client none

/-- The message joins the buffer of its partition, whose age begins with its first message. -/
def buffer (partition rawMessage : Str) (now : ℚ) (w : BronzeWriter) : BronzeWriter :=
  { w with
    bufferStartedAt :=
      if w.buffered partition = [] then w.bufferStartedAt.set partition now
      else w.bufferStartedAt
    buffers := w.buffers.set partition (w.buffered partition ++ [rawMessage]) }

/-- `append`, at a reading of the monotonic clock. -/
def append (symbol rawMessage : Str) (receivedAt : Time) (now : ℚ) (w : BronzeWriter) :
    Except ClientError Unit × BronzeWriter :=
  let partition := partitionKey symbol receivedAt
  let w := w.buffer partition rawMessage now
  if ((w.buffered partition).length : ℤ) ≥ w.flushMaxLines then w.flush client (some partition)
  else (.ok (), w)

/-! ## Calls -/

/-- A call of the writer. -/
inductive Call
  | append (symbol rawMessage : Str) (receivedAt : Time) (now : ℚ)
  | flush (partition : Option Str)
  | flushDue (now : ℚ)
  | flushAll

def call (c : Call) (w : BronzeWriter) : Except ClientError Unit × BronzeWriter :=
  match c with
  | .append symbol rawMessage receivedAt now => w.append client symbol rawMessage receivedAt now
  | .flush partition => w.flush client partition
  | .flushDue now => w.flushDue client now
  | .flushAll => w.flushAll client

/-- The writer after calls, whichever of them raised. -/
def calls (w : BronzeWriter) (cs : List Call) : BronzeWriter :=
  cs.foldl (fun w c ↦ (w.call client c).2) w

/-- The messages a call appends to a partition. -/
def Call.appended (partition : Str) : Call → List Str
  | .append symbol rawMessage receivedAt _ =>
    if partitionKey symbol receivedAt = partition then [rawMessage] else []
  | _ => []

/-! ## Conservation -/

variable {client} in
/-- A flush that returns empties its partition. -/
theorem buffered_flushPartition {partition : Str} {w w' : BronzeWriter}
    (h : w.flushPartition client partition = (.ok (), w')) (q : Str) :
    w'.buffered q = if q = partition then [] else w.buffered q := by
  rw [flushPartition] at h
  split at h
  · rename_i hnil
    cases h
    split
    · rename_i hq
      rw [hq, hnil]
    · rfl
  · split at h
    · cases h
    · cases h
      show ((w.buffers.set partition []).get? q).getD [] = _
      rw [OrderedDict.get?_set]
      split
      · rfl
      · rfl

/-- The loop over partitions keeps what flushing a partition keeps. -/
theorem flushEach_induction {P : BronzeWriter → Prop}
    (hflush : ∀ partition w, P w → P (w.flushPartition client partition).2)
    (partitions : List Str) {w : BronzeWriter} (h : P w) :
    P (w.flushEach client partitions).2 := by
  induction partitions generalizing w with
  | nil => exact h
  | cons p rest ih =>
    have hp := hflush p w h
    rw [flushEach]
    split
    · rename_i heq
      rwa [heq] at hp
    · rename_i heq
      rw [heq] at hp
      exact ih hp

/-- The lines put for a partition. -/
def stored (w : BronzeWriter) (partition : Str) : List Str :=
  (w.puts.filter fun p ↦ p.partition = partition).flatMap Put.lines

/-- What the writer has of a partition: the lines of its objects, and those it holds. -/
def account (w : BronzeWriter) (partition : Str) : List Str :=
  w.stored partition ++ w.buffered partition

/-- No object is empty, and the counters agree with the objects. -/
structure Sound (w : BronzeWriter) : Prop where
  nonempty : ∀ p ∈ w.puts, p.lines ≠ []
  lines : w.totalLinesFlushed = (w.puts.map fun p ↦ p.lines.length).sum
  objects : w.totalObjectsFlushed = w.puts.length

/-- What a flush keeps: the account of every partition, and the soundness of the objects. -/
structure Conserves (w w' : BronzeWriter) : Prop where
  account : ∀ partition, w'.account partition = w.account partition
  sound : w.Sound → w'.Sound

theorem Conserves.refl (w : BronzeWriter) : Conserves w w := ⟨fun _ ↦ rfl, id⟩

theorem Conserves.trans {w₁ w₂ w₃ : BronzeWriter} (h : Conserves w₁ w₂) (h' : Conserves w₂ w₃) :
    Conserves w₁ w₃ :=
  ⟨fun p ↦ (h'.account p).trans (h.account p), fun hs ↦ h'.sound (h.sound hs)⟩

theorem flushPartition_conserves (partition : Str) (w : BronzeWriter) :
    Conserves w (w.flushPartition client partition).2 := by
  rw [flushPartition]
  split
  · exact .refl w
  · rename_i hlines
    split
    · exact ⟨fun _ ↦ rfl, fun hs ↦ ⟨hs.nonempty, hs.lines, hs.objects⟩⟩
    · set put : Put := ⟨partition, client.uuid w.putCalls, w.buffered partition⟩ with hput
      refine ⟨fun p ↦ ?_, fun hs ↦ ⟨fun p hp ↦ ?_, ?_, ?_⟩⟩
      · show ((w.puts ++ [put]).filter fun p' ↦ p'.partition = p).flatMap Put.lines ++
          ((w.buffers.set partition []).get? p).getD [] = w.stored p ++ w.buffered p
        rw [OrderedDict.get?_set, List.filter_append, List.flatMap_append]
        split
        · rename_i heq
          subst heq
          simp [stored, hput]
        · rename_i hne
          simp [stored, buffered, hput, Ne.symm hne]
      · rcases List.mem_append.mp hp with hp | hp
        · exact hs.nonempty p hp
        · rw [List.mem_singleton.mp hp]
          exact hlines
      · show w.totalLinesFlushed + _ = ((w.puts ++ [put]).map _).sum
        rw [hs.lines, List.map_append, List.sum_append, List.map_singleton, List.sum_singleton]
      · show w.totalObjectsFlushed + 1 = (w.puts ++ [put]).length
        rw [hs.objects, List.length_append, List.length_singleton]

theorem flushEach_conserves (partitions : List Str) (w : BronzeWriter) :
    Conserves w (w.flushEach client partitions).2 :=
  flushEach_induction client (P := Conserves w)
    (fun partition w' h ↦ h.trans (flushPartition_conserves client partition w')) partitions
    (.refl w)

theorem flush_conserves (partition : Option Str) (w : BronzeWriter) :
    Conserves w (w.flush client partition).2 := by
  cases partition with
  | none => exact flushEach_conserves client _ w
  | some p => exact flushEach_conserves client _ w

/-- A message joins the buffer of its partition. -/
theorem buffered_buffer (partition message : Str) (now : ℚ) (w : BronzeWriter) (q : Str) :
    (w.buffer partition message now).buffered q =
      if q = partition then w.buffered partition ++ [message] else w.buffered q := by
  show ((w.buffers.set partition _).get? q).getD [] = _
  rw [OrderedDict.get?_set]
  split
  · rfl
  · rfl

/-- The age of a buffer is set where it was empty. -/
theorem get?_bufferStartedAt_buffer (partition message : Str) (now : ℚ) (w : BronzeWriter)
    (q : Str) : (w.buffer partition message now).bufferStartedAt.get? q =
      if q = partition ∧ w.buffered partition = [] then some now
      else w.bufferStartedAt.get? q := by
  show (if w.buffered partition = [] then _ else _ : OrderedDict Str ℚ).get? q = _
  split
  · rename_i hempty
    rw [OrderedDict.get?_set]
    exact if_congr (and_iff_left hempty).symm rfl rfl
  · rename_i hsome
    exact (if_neg fun h ↦ hsome h.2).symm

/-- Buffering a message adds it to the account of its partition. -/
theorem account_buffer (partition message : Str) (now : ℚ) (w : BronzeWriter) (q : Str) :
    (w.buffer partition message now).account q =
      w.account q ++ if partition = q then [message] else [] := by
  show w.stored q ++ (w.buffer partition message now).buffered q
    = w.stored q ++ w.buffered q ++ _
  rw [buffered_buffer]
  split
  · rename_i heq
    subst heq
    rw [if_pos rfl, List.append_assoc]
  · rename_i hne
    rw [if_neg (Ne.symm hne), List.append_nil]

theorem Sound.buffer {w : BronzeWriter} (h : w.Sound) (partition message : Str) (now : ℚ) :
    (w.buffer partition message now).Sound := ⟨h.nonempty, h.lines, h.objects⟩

/-- **What a call does**: it appends its message to the account of its partition, if it has one, and
the objects stay sound. -/
theorem call_spec (c : Call) (w : BronzeWriter) :
    (∀ partition, (w.call client c).2.account partition
        = w.account partition ++ c.appended partition) ∧
      (w.Sound → (w.call client c).2.Sound) := by
  have hflush : ∀ {w' : BronzeWriter}, Conserves w w' →
      (∀ partition, w'.account partition = w.account partition ++ []) ∧
        (w.Sound → w'.Sound) := fun h ↦
    ⟨fun partition ↦ (h.account partition).trans (List.append_nil _).symm, h.sound⟩
  cases c with
  | append symbol rawMessage receivedAt now =>
    have haccount := account_buffer (partitionKey symbol receivedAt) rawMessage now w
    rw [call, append]
    split
    · have hconserves := flush_conserves client (some (partitionKey symbol receivedAt))
        (w.buffer (partitionKey symbol receivedAt) rawMessage now)
      exact ⟨fun partition ↦ (hconserves.account partition).trans (haccount partition),
        fun hs ↦ hconserves.sound (hs.buffer _ _ _)⟩
    · exact ⟨haccount, fun hs ↦ hs.buffer _ _ _⟩
  | flush partition => exact hflush (flush_conserves client partition w)
  | flushDue now => exact hflush (flushEach_conserves client _ w)
  | flushAll => exact hflush (flush_conserves client none w)

/-- What calls do: the messages they append join the accounts, and the objects stay sound. -/
theorem calls_spec (cs : List Call) (w : BronzeWriter) :
    (∀ partition, (calls client w cs).account partition
        = w.account partition ++ cs.flatMap (Call.appended partition)) ∧
      (w.Sound → (calls client w cs).Sound) := by
  induction cs generalizing w with
  | nil => exact ⟨fun _ ↦ (List.append_nil _).symm, id⟩
  | cons c rest ih =>
    obtain ⟨haccount, hsound⟩ := call_spec client c w
    obtain ⟨hrest, hrestSound⟩ := ih (w.call client c).2
    refine ⟨fun partition ↦ ?_, fun h ↦ hrestSound (hsound h)⟩
    rw [List.flatMap_cons, ← List.append_assoc, ← haccount]
    exact hrest partition

theorem sound_empty (flushMaxLines : ℤ) (flushMaxSeconds : ℚ) :
    Sound { flushMaxLines, flushMaxSeconds } :=
  ⟨fun _ hp ↦ (nomatch hp), rfl, rfl⟩

/-- **The bronze writer conserves messages.**  After any calls, whichever of them raised, the lines
of the objects put for a partition, followed by those still buffered, are the messages appended to
it, in the order of the calls; every object holds its lines, each ended by a newline; and the lines
counted are the lines in the objects. -/
theorem conserves_messages (flushMaxLines : ℤ) (flushMaxSeconds : ℚ) (cs : List Call) :
    let w := calls client { flushMaxLines, flushMaxSeconds } cs
    (∀ partition, w.stored partition ++ w.buffered partition
        = cs.flatMap (Call.appended partition)) ∧
      (∀ p ∈ w.puts, p.object.body = some (p.lines.flatMap fun line ↦ line ++ ['\n'])) ∧
        w.totalLinesFlushed = (w.puts.map fun p ↦ p.lines.length).sum := by
  obtain ⟨haccount, hsound⟩ := calls_spec client cs { flushMaxLines, flushMaxSeconds }
  have hs := hsound (sound_empty flushMaxLines flushMaxSeconds)
  exact ⟨haccount, fun p hp ↦ congrArg some (ndjson_eq (hs.nonempty p hp)), hs.lines⟩

/-! ## The names of the objects -/

/-- A call keeps what appending a message and flushing a partition keep. -/
theorem call_induction_append {P : BronzeWriter → Prop}
    (happend : ∀ symbol rawMessage receivedAt now w, P w →
      P (w.append client symbol rawMessage receivedAt now).2)
    (hflush : ∀ partition w, P w → P (w.flushPartition client partition).2) (c : Call)
    {w : BronzeWriter} (h : P w) : P (w.call client c).2 := by
  have heach : ∀ partitions, P (w.flushEach client partitions).2 :=
    fun partitions ↦ flushEach_induction client hflush partitions h
  cases c with
  | append symbol rawMessage receivedAt now => exact happend symbol rawMessage receivedAt now w h
  | flush partition =>
    cases partition with
    | none => exact heach _
    | some p => exact heach _
  | flushDue now => exact heach _
  | flushAll => exact heach _

/-- A call keeps what buffering a message and flushing a partition keep. -/
theorem call_induction {P : BronzeWriter → Prop}
    (hbuffer : ∀ partition message now w, P w → P (w.buffer partition message now))
    (hflush : ∀ partition w, P w → P (w.flushPartition client partition).2) (c : Call)
    {w : BronzeWriter} (h : P w) : P (w.call client c).2 := by
  refine call_induction_append client (fun symbol rawMessage receivedAt now w h ↦ ?_) hflush c h
  have hbuffered := hbuffer (partitionKey symbol receivedAt) rawMessage now w h
  rw [append]
  split
  · exact flushEach_induction client hflush _ hbuffered
  · exact hbuffered

/-- Calls keep what a call keeps. -/
theorem calls_induction {P : BronzeWriter → Prop} (hcall : ∀ c w, P w → P (w.call client c).2)
    (cs : List Call) {w : BronzeWriter} (h : P w) : P (calls client w cs) := by
  induction cs generalizing w with
  | nil => exact h
  | cons c rest ih => exact ih (hcall c w h)

/-- Every object has the name drawn at a call of `put_object`, the later ones at later calls. -/
def Named (w : BronzeWriter) : Prop :=
  ∃ draws : List ℕ, draws.Pairwise (· < ·) ∧ (∀ n ∈ draws, n < w.putCalls) ∧
    w.puts.map Put.uuid = draws.map client.uuid

variable {client}

theorem Named.flushPartition {w : BronzeWriter} (h : w.Named client) (partition : Str) :
    (w.flushPartition client partition).2.Named client := by
  obtain ⟨draws, hincreasing, hdrawn, hnames⟩ := h
  rw [BronzeWriter.flushPartition]
  split
  · exact ⟨draws, hincreasing, hdrawn, hnames⟩
  · split
    · exact ⟨draws, hincreasing, fun n hn ↦ Nat.lt_succ_of_lt (hdrawn n hn), hnames⟩
    · refine ⟨draws ++ [w.putCalls], ?_, fun n hn ↦ ?_, ?_⟩
      · refine List.pairwise_append.mpr ⟨hincreasing, List.pairwise_singleton _ _, ?_⟩
        intro n hn n' hn'
        rw [List.mem_singleton.mp hn']
        exact hdrawn n hn
      · rcases List.mem_append.mp hn with hn | hn
        · exact Nat.lt_succ_of_lt (hdrawn n hn)
        · rw [List.mem_singleton.mp hn]
          exact Nat.lt_succ_self _
      · show (w.puts ++ [_]).map Put.uuid = _
        rw [List.map_append, List.map_append, hnames]
        rfl

theorem Named.call {w : BronzeWriter} (h : w.Named client) (c : Call) :
    (w.call client c).2.Named client :=
  call_induction client (P := fun w ↦ w.Named client) (fun _ _ _ _ h ↦ h)
    (fun partition _ h ↦ h.flushPartition partition) c h

theorem Named.calls {w : BronzeWriter} (h : w.Named client) (cs : List Call) :
    (BronzeWriter.calls client w cs).Named client :=
  calls_induction client (P := fun w ↦ w.Named client) (fun c _ h ↦ h.call c) cs h

theorem named_empty (flushMaxLines : ℤ) (flushMaxSeconds : ℚ) :
    Named client { flushMaxLines, flushMaxSeconds } :=
  ⟨[], .nil, fun _ hn ↦ (nomatch hn), rfl⟩

/-- **The objects of a writer are apart**, where the names drawn are. -/
theorem Named.nodup {w : BronzeWriter} (h : w.Named client)
    (hdistinct : Set.InjOn client.uuid {n | n < w.putCalls}) : (w.puts.map Put.uuid).Nodup := by
  obtain ⟨draws, hincreasing, hdrawn, hnames⟩ := h
  rw [hnames]
  have hnodup : draws.Nodup := hincreasing.imp ne_of_lt
  exact hnodup.map_on fun n hn n' hn' heq ↦ hdistinct (hdrawn n hn) (hdrawn n' hn') heq

theorem Named.exists_draw {w : BronzeWriter} (h : w.Named client) {p : Put} (hp : p ∈ w.puts) :
    ∃ n < w.putCalls, p.uuid = client.uuid n := by
  obtain ⟨draws, -, hdrawn, hnames⟩ := h
  have hmem : p.uuid ∈ draws.map client.uuid := hnames ▸ List.mem_map_of_mem hp
  obtain ⟨n, hn, heq⟩ := List.mem_map.mp hmem
  exact ⟨n, hdrawn n hn, heq.symm⟩

end BronzeWriter

end PostTrade
