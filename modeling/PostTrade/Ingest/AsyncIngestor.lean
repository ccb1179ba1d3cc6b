import PostTrade.Ingest.Normalize
import PostTrade.Queue.RedisStream

/-!
# The ingestor

`ingest/async_ingestor.py`: one connection after the other to the feed of the exchange, every
message handed to the bronze hook, normalized and published.

What the world does to a run is its script: how every connection goes, the frames that arrive on
it, the clock at each of them, what the hook does and how the XADD ends.  The client sends a command
once, and a command that fails is a redis error; it may fail after the entry has reached the
stream.  Leaving the `async with` closes the connection, which raises nothing.

The run keeps a log of what it did.  Metrics and the throughput log are left out: nothing reads
them.
-/

set_option autoImplicit false

namespace PostTrade

open Python

/-- The exceptions that end the handling of a message or a connection. -/
inductive PyError
  | json (e : JsonError)
  | normalize (e : NormalizeError)
  | unicodeDecodeError
  | serializationError
  | attributeError
  | typeError
  | redisError
  | connectionClosed
  | osError
  | other
  deriving DecidableEq, Repr

/-- The exceptions `run` catches and reconnects after. -/
def PyError.disconnects (e : PyError) : Bool := e = .connectionClosed || e = .osError

/-! ## What arrives -/

/-- A frame of the feed.  A binary frame is bytes, of which two readings matter: the one `json`
makes after it has guessed their encoding, and the one as UTF-8. -/
inductive Frame
  | text (s : Str)
  | binary (detected utf8 : Option Str)

/-- `json.loads(raw)`. -/
def Frame.loads : Frame → Except PyError Json
  | .text s => (Json.loads s).mapError .json
  | .binary none _ => .error .unicodeDecodeError
  | .binary (some s) _ => (Json.loads s).mapError .json

/-- `raw if isinstance(raw, str) else raw.decode("utf-8")`. -/
def Frame.rawText : Frame → Except PyError Str
  | .text s => .ok s
  | .binary _ none => .error .unicodeDecodeError
  | .binary _ (some s) => .ok s

/-- How an XADD ends: answered, or with an error, the entry being in the stream or not. -/
inductive Xadd
  | answered
  | failed (stored : Bool)

/-- A frame, and what the world does while it is handled: the clock when its fields are read and
when its tick is built, the exception of the hook if it raises one, and how the XADD ends. -/
structure Arrival where
  raw : Frame
  exchangeNow : Time
  ingestNow : Time
  hookRaises : Option PyError := none
  xadd : Xadd := .answered

/-- A connection: the exception of `connect`, that of the subscription, or the frames that arrive
and the exception that ends them, which is none where the server closes cleanly. -/
inductive Connection
  | refused (e : PyError)
  | notSubscribed (e : PyError)
  | opened (arrivals : List Arrival) (ending : Option PyError)

/-! ## The ingestor -/

/-- What a run does, in order. -/
inductive Event
  | subscribed (productIds channels : List Str)
  /-- `on_raw_message(symbol, raw_text)` is called for a frame. -/
  | handed (symbol : Json) (raw : Frame) (rawText : Str)
  | published (tick : Tick)
  | slept (backoff : ℕ)

structure AsyncIngestor where
  symbols : List Str
  /-- Whether there is a hook. -/
  onRawMessage : Bool
  /-- The last number each counter has given out. -/
  sequences : Str → ℕ := fun _ ↦ 0
  /-- The stream, on the side of redis. -/
  stream : TickStream
  totalPublished : ℕ := 0
  log : List Event := []

namespace AsyncIngestor

def record (ing : AsyncIngestor) (e : Event) : AsyncIngestor := { ing with log := ing.log ++ [e] }

/-- The tick reaches the stream. -/
def xadd (ing : AsyncIngestor) (tick : Tick) : AsyncIngestor :=
  { ing with
    stream := (StreamPublisher.publish ing.stream tick).1
    log := ing.log ++ [.published tick] }

/-- `_publish`.  The tick is written as JSON before anything is sent. -/
def publish (ing : AsyncIngestor) (tick : Tick) (xadd : Xadd) :
    Except PyError Unit × AsyncIngestor :=
  if tick.encodable then
    match xadd with
    | .answered => (.ok (), { ing.xadd tick with totalPublished := ing.totalPublished + 1 })
    | .failed true => (.error .redisError, ing.xadd tick)
    | .failed false => (.error .redisError, ing)
  else (.error .serializationError, ing)

/-- `msg_type in _RELEVANT_TYPES`: a list or a dictionary cannot be looked up in a set. -/
def isRelevant : Json → Except PyError Bool
  | .list _ | .dict _ => .error .typeError
  | msgType =>
    .ok (isType msgType "ticker" || isType msgType "match" || isType msgType "last_match")

/-- The bronze capture of `_handle_message`. -/
def capture (ing : AsyncIngestor) (symbol : Json) (a : Arrival) :
    Except PyError Unit × AsyncIngestor :=
  if !symbol.isNone && ing.onRawMessage then
    match a.raw.rawText with
    | .error e => (.error e, ing)
    | .ok rawText =>
      let ing := ing.record (.handed symbol a.raw rawText)
      match a.hookRaises with
      | some e => (.error e, ing)
      | none => (.ok (), ing)
  else (.ok (), ing)

/-- `normalize` on the counters of the ingestor, and `_publish` where there is a tick. -/
def normalizeAndPublish (ing : AsyncIngestor) (data : Dict) (a : Arrival) :
    Except PyError Unit × AsyncIngestor :=
  match normalize ing.sequences data (Json.get data "type".toList) a.exchangeNow a.ingestNow with
  | (.error e, sequences) => (.error (.normalize e), { ing with sequences })
  | (.ok none, sequences) => (.ok (), { ing with sequences })
  | (.ok (some tick), sequences) => publish { ing with sequences } tick a.xadd

/-- `_handle_message`. -/
def handleMessage (ing : AsyncIngestor) (a : Arrival) : Except PyError Unit × AsyncIngestor :=
  match a.raw.loads with
  | .error e => (.error e, ing)
  | .ok (.dict data) =>
    match isRelevant (Json.get data "type".toList) with
    | .error e => (.error e, ing)
    | .ok false => (.ok (), ing)
    | .ok true =>
      match ing.capture (Json.get data "product_id".toList) a with
      | (.error e, ing) => (.error e, ing)
      | (.ok (), ing) => ing.normalizeAndPublish data a
  -- no other value has a `get`
  | .ok _ => (.error .attributeError, ing)

/-- `async for raw in ws`. -/
def receive (ing : AsyncIngestor) (ending : Option PyError) :
    List Arrival → Except PyError Unit × AsyncIngestor
  | [] =>
    match ending with
    | none => (.ok (), ing)
    | some e => (.error e, ing)
  | a :: rest =>
    match ing.handleMessage a with
    | (.error e, ing) => (.error e, ing)
    | (.ok (), ing) => ing.receive ending rest

/-- `_subscribe`. -/
def subscribe (ing : AsyncIngestor) : AsyncIngestor :=
  ing.record (.subscribed ing.symbols ["ticker".toList, "matches".toList, "heartbeat".toList])

/-- The body of the `try`, and the backoff after it. -/
def connect (ing : AsyncIngestor) (backoff : ℕ) :
    Connection → Except PyError Unit × ℕ × AsyncIngestor
  | .refused e => (.error e, backoff, ing)
  | .notSubscribed e => (.error e, backoff, ing)
  | .opened arrivals ending =>
    let (result, ing) := ing.subscribe.receive ending arrivals
    (result, 1, ing)

/-- `max_backoff`. -/
def maxBackoff : ℕ := 30

/-- The loop of `run`; the result is `none` while the run goes on after what the script tells. -/
def loop (maxReconnects : Option ℕ) :
    ℕ → ℕ → AsyncIngestor → List Connection → Option (Except PyError Unit) × AsyncIngestor
  | _, attempts, ing, [] =>
    if maxReconnects.all (attempts ≤ ·) then (none, ing) else (some (.ok ()), ing)
  | backoff, attempts, ing, c :: rest =>
    if maxReconnects.all (attempts ≤ ·) then
      match ing.connect backoff c with
      | (.ok (), backoff, ing) => loop maxReconnects backoff attempts ing rest
      | (.error e, backoff, ing) =>
        if e.disconnects then
          loop maxReconnects (min (backoff * 2) maxBackoff) (attempts + 1)
            (ing.record (.slept backoff)) rest
        else (some (.error e), ing)
    else (some (.ok ()), ing)

/-- `run`. -/
def run (ing : AsyncIngestor) (maxReconnects : Option ℕ) (script : List Connection) :
    Option (Except PyError Unit) × AsyncIngestor :=
  loop maxReconnects 1 0 ing script

/-! ## Publishing -/

variable {ing ing' : AsyncIngestor} {tick tick' : Tick} {xadd : Xadd}

theorem publish_of_encodable (h : tick.encodable = true) :
    publish ing tick .answered =
      (.ok (), { ing.xadd tick with totalPublished := ing.totalPublished + 1 }) := by
  rw [publish.eq_def, if_pos h]

/-- A tick is published where it can be written and redis answers. -/
theorem publish_ok (h : publish ing tick xadd = (.ok (), ing')) :
    ing' = { ing.xadd tick with totalPublished := ing.totalPublished + 1 } := by
  rw [publish.eq_def] at h
  split at h
  · cases xadd with
    | answered =>
      cases h
      rfl
    | failed stored =>
      cases stored with
      | true => cases h
      | false => cases h
  · cases h

/-- How a tick is published, the log only grows. -/
theorem log_publish (ing : AsyncIngestor) (tick : Tick) (xadd : Xadd) :
    ing.log <+: (publish ing tick xadd).2.log := by
  rw [publish.eq_def]
  split
  · cases xadd with
    | answered => exact List.prefix_append _ _
    | failed stored =>
      cases stored with
      | true => exact List.prefix_append _ _
      | false => exact List.prefix_rfl
  · exact List.prefix_rfl

/-- Whether publishing raises is decided by whether the tick can be written, and by redis. -/
theorem publish_result (h : tick'.encodable = tick.encodable) :
    (publish ing' tick' xadd).1 = (publish ing tick xadd).1 := by
  rw [publish.eq_def, publish.eq_def, h]
  split
  · rcases xadd with _ | _ | _
    · rfl
    · rfl
    · rfl
  · rfl

end AsyncIngestor

end PostTrade
