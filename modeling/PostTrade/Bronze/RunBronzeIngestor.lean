import PostTrade.Bronze.ReadBack
import PostTrade.Ingest.Publication
import PostTrade.Silver.Content

/-!
# The bronze ingestor

`bronze/run_bronze_ingestor.py`: an ingestor whose hook is the `append` of a bronze writer, with a
task beside it that flushes what is due, and a last flush of everything.

A message that `normalize` accepts reaches the writer and the stream under the same symbol: its text
joins the account of its partition, and its tick the log (`handleMessage_ok`).  `Tracks` says what
the two hold of many messages, whatever is flushed in between (`Tracks.run`).
-/

set_option autoImplicit false

namespace PostTrade

open Python Numbering

/-- A call of the hook, and when it was made. -/
structure Landing where
  symbol : Str
  rawText : Str
  receivedAt : Time
  deriving DecidableEq

/-- The partition a message lands in. -/
def Landing.partition (l : Landing) : Str := partitionKey l.symbol l.receivedAt

structure BronzeIngestor where
  ingestor : AsyncIngestor
  writer : BronzeWriter
  /-- The calls of the hook, in order. -/
  landings : List Landing := []

/-- What happens to a bronze ingestor: a message arrives, with the two clocks at the call of the
hook, or the task beside it flushes what is due. -/
inductive Occurrence
  | message (a : Arrival) (receivedAt : Time) (now : ℚ)
  | flushDue (now : ℚ)

/-- The tick is one of the line: it says what the line says.  Its symbol can be encoded, as that of
every tick that is published. -/
def TickOf (line : Str) (tick : Tick) : Prop :=
  tick.encodable = true ∧ ∃ timed, lineContent line = some (tick.content timed)

namespace BronzeIngestor

variable (client : Client) (printed : Json → Str)

/-- `f"{symbol}"`.  How Python prints a value that is no string is left open. -/
def symbolText : Json → Str
  | .str s => s
  | symbol => printed symbol

/-- The call of the hook that handling a message makes. -/
def hookCall (ing : AsyncIngestor) (a : Arrival) : Option (Json × Str) :=
  ((ing.handleMessage a).2.log.drop ing.log.length).findSome? fun e ↦
    match e with
    | .handed symbol _ rawText => some (symbol, rawText)
    | _ => none

/-- `_handle_message`, with `append` for its hook. -/
def handleMessage (s : BronzeIngestor) (a : Arrival) (receivedAt : Time) (now : ℚ) :
    Except PyError Unit × BronzeIngestor :=
  match hookCall s.ingestor a with
  | none =>
    let (result, ingestor) := s.ingestor.handleMessage a
    (result, { s with ingestor })
  | some (symbol, rawText) =>
    let symbol := symbolText printed symbol
    let (appended, writer) := s.writer.append client symbol rawText receivedAt now
    let hookRaises :=
      match appended with
      | .ok () => none
      | .error _ => some .other
    let (result, ingestor) := s.ingestor.handleMessage { a with hookRaises }
    (result, { ingestor, writer, landings := s.landings ++ [⟨symbol, rawText, receivedAt⟩] })

/-- One occurrence after the other, until a message raises.  An exception of `flush_due` ends the
task and nothing else. -/
def run : BronzeIngestor → List Occurrence → Except PyError Unit × BronzeIngestor
  | s, [] => (.ok (), s)
  | s, .message a receivedAt now :: rest =>
    match s.handleMessage client printed a receivedAt now with
    | (.error e, s) => (.error e, s)
    | (.ok (), s) => run s rest
  | s, .flushDue now :: rest => run { s with writer := (s.writer.flushDue client now).2 } rest

/-- The occurrences, and `flush_all` after them; nothing where one of them raises. -/
def runToEnd (s : BronzeIngestor) (occurrences : List Occurrence) : Option BronzeIngestor :=
  match s.run client printed occurrences with
  | (.error _, _) => none
  | (.ok (), s) =>
    match s.writer.flushAll client with
    | (.error _, _) => none
    | (.ok (), writer) => some { s with writer }

/-! ## Handling an accepted message -/

variable {client printed}

theorem log_normalizeAndPublish (ing : AsyncIngestor) (data : Dict) (a : Arrival) :
    ing.log <+: (ing.normalizeAndPublish data a).2.log := by
  rw [AsyncIngestor.normalizeAndPublish]
  split
  · exact List.prefix_rfl
  · exact List.prefix_rfl
  · rename_i tick sequences _
    exact AsyncIngestor.log_publish { ing with sequences } tick a.xadd

/-- A message that `normalize` accepts, under a symbol that can be encoded. -/
structure Accepted (raw : Frame) (data : Dict) (symbol : Str) : Prop where
  loads : raw.loads = .ok (.dict data)
  relevant : AsyncIngestor.isRelevant (Json.get data "type".toList) = .ok true
  product : Json.get data "product_id".toList = .str symbol
  normalizes : ∀ (sequences : Str → ℕ) (exchangeNow ingestNow : Time), ∃ tick sequences',
    normalize sequences data (Json.get data "type".toList) exchangeNow ingestNow =
      (.ok (some tick), sequences') ∧ tick.symbol = symbol ∧ tick.encodable = true

/-- Accepting a message once is accepting it at any time. -/
theorem accepted_of_normalizes {raw : Frame} {tick : Tick} (h : Normalizes raw tick) :
    ∃ data, Accepted raw data tick.symbol := by
  obtain ⟨data, sequences, exchangeNow, ingestNow, hloads, hrelevant, hnormalize, hencodable⟩ := h
  have hpair : normalize sequences data (Json.get data "type".toList) exchangeNow ingestNow =
      (.ok (some tick), (normalize sequences data (Json.get data "type".toList) exchangeNow
        ingestNow).2) := Prod.ext hnormalize rfl
  obtain ⟨f, symbol, hf, hsymbol, htick, -⟩ := normalize_eq_ok_iff.mp hpair
  obtain ⟨hticksymbol, -, -⟩ := tickOf_ok htick
  refine ⟨data, hloads, hrelevant, ?_, fun sequences' exchangeNow' ingestNow' ↦ ?_⟩
  · obtain ⟨-, -, -, hproduct⟩ := fields_some hf
    rw [hticksymbol, ← hproduct]
    exact eq_str_of_isEncodable hsymbol ((tickOf_encodable htick).symm.trans hencodable)
  · obtain ⟨t', heq, -⟩ := normalize_eq hpair sequences' exchangeNow' ingestNow'
    exact ⟨_, _, heq, rfl, hencodable⟩

/-- The test for a message that `normalize` accepts. -/
def accepts (raw : Frame) : Bool :=
  match raw.loads with
  | .ok (.dict data) =>
    match AsyncIngestor.isRelevant (Json.get data "type".toList),
      (normalize (fun _ ↦ 0) data (Json.get data "type".toList) 0 0).1 with
    | .ok true, .ok (some tick) => tick.encodable
    | _, _ => false
  | _ => false

theorem accepts_iff {raw : Frame} : accepts raw = true ↔ ∃ tick, Normalizes raw tick := by
  constructor
  · intro h
    rw [accepts] at h
    split at h
    · rename_i data hloads
      split at h
      · rename_i tick hrelevant hnormalize
        exact ⟨tick, data, _, _, _, hloads, hrelevant, hnormalize, h⟩
      · cases h
    · cases h
  · rintro ⟨tick, data, sequences, exchangeNow, ingestNow, hloads, hrelevant, hnormalize,
      hencodable⟩
    obtain ⟨t', heq, -⟩ := normalize_eq (Prod.ext hnormalize rfl) (fun _ ↦ 0) 0 0
    rw [accepts, hloads]
    dsimp only
    rw [hrelevant, heq]
    exact hencodable

instance (raw : Frame) : Decidable (∃ tick, Normalizes raw tick) := decidable_of_iff _ accepts_iff

section Accepted

variable {ing : AsyncIngestor} {a : Arrival} {data : Dict} {symbol rawText : Str}
  (hhook : ing.onRawMessage = true) (h : Accepted a.raw data symbol)

include hhook h

/-- Where the text cannot be had, nothing is handed over. -/
theorem handleMessage_noText {e : PyError} (hraw : a.raw.rawText = .error e) :
    ing.handleMessage a = (.error e, ing) := by
  have hcapture : ing.capture (.str symbol) a = (.error e, ing) := by
    rw [AsyncIngestor.capture, hhook, hraw]
    rfl
  simp only [AsyncIngestor.handleMessage, h.loads, h.relevant, h.product, hcapture]

variable (hraw : a.raw.rawText = .ok rawText)

include hraw

/-- The message is handed over, and the hook raises. -/
theorem handleMessage_raises {e : PyError} (hraises : a.hookRaises = some e) :
    ing.handleMessage a = (.error e, ing.record (.handed (.str symbol) a.raw rawText)) := by
  have hcapture : ing.capture (.str symbol) a =
      (.error e, ing.record (.handed (.str symbol) a.raw rawText)) := by
    rw [AsyncIngestor.capture, hhook, hraw, hraises]
    rfl
  simp only [AsyncIngestor.handleMessage, h.loads, h.relevant, h.product, hcapture]

/-- The message is handed over, and the hook returns. -/
theorem handleMessage_returns (hreturns : a.hookRaises = none) : ing.handleMessage a =
    (ing.record (.handed (.str symbol) a.raw rawText)).normalizeAndPublish data a := by
  have hcapture : ing.capture (.str symbol) a =
      (.ok (), ing.record (.handed (.str symbol) a.raw rawText)) := by
    rw [AsyncIngestor.capture, hhook, hraw, hreturns]
    rfl
  simp only [AsyncIngestor.handleMessage, h.loads, h.relevant, h.product, hcapture]

/-- The hook is called with the symbol and the text, whether it raises or not. -/
theorem hookCall_eq : hookCall ing a = some (.str symbol, rawText) := by
  have hlog : ing.log ++ [.handed (.str symbol) a.raw rawText] <+:
      (ing.handleMessage a).2.log := by
    cases hraises : a.hookRaises with
    | some e =>
      rw [handleMessage_raises hhook h hraw hraises]
      exact List.prefix_rfl
    | none =>
      rw [handleMessage_returns hhook h hraw hraises]
      exact log_normalizeAndPublish (ing.record (.handed (.str symbol) a.raw rawText)) data a
  obtain ⟨rest, hlog⟩ := hlog
  rw [hookCall, ← hlog, List.append_assoc, List.drop_left]
  rfl

end Accepted

/-- An accepted message that is published. -/
theorem normalizeAndPublish_ok {ing ing' : AsyncIngestor} {a : Arrival} {data : Dict}
    {symbol : Str} (haccepted : Accepted a.raw data symbol)
    (h : ing.normalizeAndPublish data a = (.ok (), ing')) :
    ∃ tick sequences', normalize ing.sequences data (Json.get data "type".toList) a.exchangeNow
        a.ingestNow = (.ok (some tick), sequences') ∧ tick.symbol = symbol ∧
      tick.encodable = true ∧ ing'.onRawMessage = ing.onRawMessage ∧
        published ing'.log = published ing.log ++ [tick] := by
  obtain ⟨tick, sequences', hnormalize, hsymbol, hencodable⟩ :=
    haccepted.normalizes ing.sequences a.exchangeNow a.ingestNow
  refine ⟨tick, sequences', hnormalize, hsymbol, hencodable, ?_⟩
  rw [AsyncIngestor.normalizeAndPublish, hnormalize] at h
  obtain rfl := AsyncIngestor.publish_ok h
  exact ⟨rfl, published_append _ _⟩

/-- **What handling an accepted message does**, if it returns: the text joins the writer and the
tick the log, under one symbol. -/
theorem handleMessage_ok {s s' : BronzeIngestor} {a : Arrival} {receivedAt : Time} {now : ℚ}
    {data : Dict} {symbol : Str} (hhook : s.ingestor.onRawMessage = true)
    (haccepted : Accepted a.raw data symbol)
    (h : s.handleMessage client printed a receivedAt now = (.ok (), s')) :
    ∃ rawText tick sequences exchangeNow ingestNow sequences', a.raw.rawText = .ok rawText ∧
      normalize sequences data (Json.get data "type".toList) exchangeNow ingestNow =
        (.ok (some tick), sequences') ∧ tick.symbol = symbol ∧ tick.encodable = true ∧
      s'.landings = s.landings ++ [⟨symbol, rawText, receivedAt⟩] ∧
      s.writer.append client symbol rawText receivedAt now = (.ok (), s'.writer) ∧
      s'.ingestor.onRawMessage = true ∧
      published s'.ingestor.log = published s.ingestor.log ++ [tick] := by
  cases hraw : a.raw.rawText with
  | error e =>
    have hhandle := handleMessage_noText hhook haccepted hraw
    have hnone : hookCall s.ingestor a = none := by
      rw [hookCall, hhandle, List.drop_length]
      rfl
    rw [handleMessage, hnone, hhandle] at h
    cases h
  | ok rawText =>
    rw [handleMessage, hookCall_eq hhook haccepted hraw] at h
    dsimp only [symbolText] at h
    cases happend : s.writer.append client symbol rawText receivedAt now with
    | mk appended writer =>
      rw [happend] at h
      cases appended with
      | error e =>
        dsimp only at h
        rw [handleMessage_raises (a := { a with hookRaises := some .other }) hhook haccepted hraw
          rfl] at h
        cases h
      | ok u =>
        dsimp only at h
        rw [handleMessage_returns (a := { a with hookRaises := none }) hhook haccepted hraw
          rfl] at h
        obtain ⟨hresult, rfl⟩ := Prod.ext_iff.mp h
        dsimp only at hresult
        obtain ⟨tick, sequences', hnormalize, hsymbol, hencodable, hhook', hlog⟩ :=
          normalizeAndPublish_ok (a := { a with hookRaises := none }) haccepted
            (Prod.ext hresult rfl)
        refine ⟨rawText, tick, _, _, _, sequences', rfl, hnormalize, hsymbol, hencodable, rfl,
          happend, hhook'.trans hhook, ?_⟩
        rw [hlog, AsyncIngestor.record, published_append, published_handed, List.append_nil]

/-- What the hook does apart, a message is handled by the ingestor. -/
theorem handleMessage_ingestor {s s' : BronzeIngestor} {a : Arrival} {receivedAt : Time} {now : ℚ}
    {result : Except PyError Unit}
    (h : s.handleMessage client printed a receivedAt now = (result, s')) :
    ∃ a', s.ingestor.handleMessage a' = (result, s'.ingestor) := by
  rw [handleMessage] at h
  split at h
  · cases h
    exact ⟨a, rfl⟩
  · cases h
    exact ⟨_, rfl⟩

/-! ## Many messages -/

/-- The text handed over is the one that `json` reads, and it is one line. -/
def Readable (raw : Frame) : Prop :=
  ∃ rawText, raw.rawText = .ok rawText ∧ raw.loads = (Json.loads rawText).mapError .json ∧
    OneLine rawText

/-- A message is accepted and readable, and arrives on the day. -/
def Regular (today : ℤ) : Occurrence → Prop
  | .message a receivedAt _ =>
    (∃ tick, Normalizes a.raw tick) ∧ Readable a.raw ∧ receivedAt / Datetime.day = today
  | .flushDue _ => True

/-- A frame of text is handed over as it is read. -/
theorem regular_of_text {today : ℤ} {a : Arrival} {text : Str} {receivedAt : Time} {now : ℚ}
    (hraw : a.raw = .text text) (haccepts : accepts (.text text) = true) (hone : OneLine text)
    (hday : receivedAt / Datetime.day = today) : Regular today (.message a receivedAt now) := by
  rw [Regular, hraw]
  exact ⟨accepts_iff.mp haccepts, ⟨text, rfl, rfl, hone⟩, hday⟩

/-- What the writer and the log hold of the messages handled. -/
structure Tracks (client : Client) (today : ℤ) (base : List Entry) (s : BronzeIngestor) :
    Prop where
  hook : s.ingestor.onRawMessage = true
  inStep : s.ingestor.InStep base
  sound : s.writer.Sound
  named : s.writer.Named client
  /-- The texts of a partition are in its objects or in its buffer. -/
  account : ∀ partition, s.writer.account partition =
    (s.landings.filter fun l ↦ l.partition = partition).map Landing.rawText
  /-- The ticks are those of the texts. -/
  ticks : List.Forall₂ (fun l tick ↦ tick.symbol = l.symbol ∧ TickOf l.rawText tick) s.landings
    (published s.ingestor.log)
  lines : ∀ l ∈ s.landings, OneLine l.rawText ∧ strip l.rawText ≠ []
  date : ∀ l ∈ s.landings, l.receivedAt / Datetime.day = today

variable {today : ℤ} {base : List Entry}

/-- An ingestor and a writer that have just been set up. -/
def init (symbols : List Str) (stream : TickStream) (flushMaxLines : ℤ) (flushMaxSeconds : ℚ) :
    BronzeIngestor where
  ingestor := AsyncIngestor.init symbols true stream
  writer := { flushMaxLines, flushMaxSeconds }

theorem tracks_init (client : Client) (today : ℤ) (symbols : List Str) (stream : TickStream)
    (flushMaxLines : ℤ) (flushMaxSeconds : ℚ) :
    (init symbols stream flushMaxLines flushMaxSeconds).Tracks client today stream.entries where
  hook := rfl
  inStep := AsyncIngestor.inStep_init symbols true stream
  sound := ⟨fun _ hp ↦ (nomatch hp), rfl, rfl⟩
  named := BronzeWriter.named_empty flushMaxLines flushMaxSeconds
  account := fun _ ↦ rfl
  ticks := .nil
  lines := fun _ hl ↦ nomatch hl
  date := fun _ hl ↦ nomatch hl

/-- A flush of what is due, or of everything. -/
theorem Tracks.call {s : BronzeIngestor} (h : s.Tracks client today base) {c : BronzeWriter.Call}
    (hc : ∀ partition, c.appended partition = []) :
    Tracks client today base { s with writer := (s.writer.call client c).2 } := by
  obtain ⟨haccount, hsound⟩ := BronzeWriter.call_spec client c s.writer
  refine ⟨h.hook, h.inStep, hsound h.sound, h.named.call c, fun partition ↦ ?_, h.ticks, h.lines,
    h.date⟩
  rw [haccount, hc, List.append_nil, h.account]

theorem Tracks.message {s s' : BronzeIngestor} (h : s.Tracks client today base) {a : Arrival}
    {receivedAt : Time} {now : ℚ} (hregular : Regular today (.message a receivedAt now))
    (hhandle : s.handleMessage client printed a receivedAt now = (.ok (), s')) :
    s'.Tracks client today base := by
  obtain ⟨⟨accepted, hnormalizes⟩, ⟨rawText', hraw', hread, hone⟩, hday⟩ := hregular
  obtain ⟨data, haccepted⟩ := accepted_of_normalizes hnormalizes
  obtain ⟨a', ha'⟩ := handleMessage_ingestor hhandle
  obtain ⟨rawText, tick, sequences, exchangeNow, ingestNow, sequences', hraw, hnormalize, hsymbol,
    hencodable, hlandings, happend, hhook, hlog⟩ := handleMessage_ok h.hook haccepted hhandle
  obtain rfl : rawText' = rawText := Except.ok.inj (hraw'.symm.trans hraw)
  have hloads : Json.loads rawText' = .ok (.dict data) := by
    rw [haccepted.loads] at hread
    cases hjson : Json.loads rawText' with
    | error e =>
      rw [hjson] at hread
      cases hread
    | ok json =>
      rw [hjson] at hread
      cases hread
      rfl
  obtain ⟨haccount, hsound⟩ := BronzeWriter.call_spec client
    (.append accepted.symbol rawText' receivedAt now) s.writer
  have hnamed := h.named.call (.append accepted.symbol rawText' receivedAt now)
  have hwriter : (s.writer.call client (.append accepted.symbol rawText' receivedAt now)).2 =
      s'.writer := congrArg Prod.snd happend
  rw [hwriter] at haccount hsound hnamed
  refine ⟨hhook, ?_, hsound h.sound, hnamed, fun partition ↦ ?_, ?_, fun l hl ↦ ?_,
    fun l hl ↦ ?_⟩
  · have hafter := h.inStep.message (AsyncIngestor.effect_handleMessage s.ingestor a')
    rw [ha'] at hafter
    exact hafter
  · rw [haccount, h.account, hlandings, List.filter_append, List.map_append]
    by_cases hpartition : partitionKey accepted.symbol receivedAt = partition
    · simp [BronzeWriter.Call.appended, Landing.partition, hpartition]
    · simp [BronzeWriter.Call.appended, Landing.partition, hpartition]
  · rw [hlandings, hlog]
    exact List.rel_append h.ticks
      (.cons ⟨hsymbol, hencodable, _, lineContent_of_normalize hloads hnormalize⟩ .nil)
  · rw [hlandings] at hl
    rcases List.mem_append.mp hl with hl | hl
    · exact h.lines l hl
    · rw [List.mem_singleton.mp hl]
      exact ⟨hone, strip_ne_nil (Json.brace_mem_of_loads hloads) rfl⟩
  · rw [hlandings] at hl
    rcases List.mem_append.mp hl with hl | hl
    · exact h.date l hl
    · rw [List.mem_singleton.mp hl]
      exact hday

/-- **What handling messages leaves** in the writer and the log, whatever is flushed in between. -/
theorem Tracks.run {s s' : BronzeIngestor} (h : s.Tracks client today base)
    {occurrences : List Occurrence} (hregular : ∀ o ∈ occurrences, Regular today o)
    (hrun : BronzeIngestor.run client printed s occurrences = (.ok (), s')) :
    s'.Tracks client today base := by
  induction occurrences generalizing s with
  | nil =>
    cases hrun
    exact h
  | cons o rest ih =>
    have hrest : ∀ o ∈ rest, Regular today o := fun o ho ↦ hregular o (List.mem_cons_of_mem _ ho)
    have ho := hregular o List.mem_cons_self
    cases o with
    | message a receivedAt now =>
      rw [BronzeIngestor.run] at hrun
      split at hrun
      · cases hrun
      · rename_i s₁ hhandle
        exact ih (h.message ho hhandle) hrest hrun
    | flushDue now => exact ih (h.call (c := .flushDue now) fun _ ↦ rfl) hrest hrun

end BronzeIngestor

end PostTrade
