import PostTrade.Ingest.AsyncIngestor

/-!
# What an ingestor publishes

Two facts about the log of a run, at every point of it: the ticks of every symbol are numbered from
one on without gap or repeat, and the ticks are the normalizations of messages that were handed to
the bronze hook before, in the same order.

Between two messages the counters are in step with the log.  A message can leave them ahead of it: a
number is drawn, and then `Tick` refuses the values or the XADD fails.  No such message is followed
by another one, because neither error is among those the run reconnects after.

`Effect` says once what handling a message can do, and `run_induction` is the induction over a run.
-/

set_option autoImplicit false

namespace PostTrade

open Python Numbering

/-! ## The log -/

/-- The messages handed to the hook, in order. -/
def handed (log : List Event) : List Frame :=
  log.filterMap fun e ↦
    match e with
    | .handed _ raw _ => some raw
    | _ => none

/-- The ticks that reached the stream, in order. -/
def published (log : List Event) : List Tick :=
  log.filterMap fun e ↦
    match e with
    | .published tick => some tick
    | _ => none

@[simp] theorem handed_append (xs ys : List Event) :
    handed (xs ++ ys) = handed xs ++ handed ys := List.filterMap_append

@[simp] theorem published_append (xs ys : List Event) :
    published (xs ++ ys) = published xs ++ published ys := List.filterMap_append

@[simp] theorem handed_handed (symbol : Json) (raw : Frame) (rawText : Str) :
    handed [.handed symbol raw rawText] = [raw] := rfl

@[simp] theorem published_handed (symbol : Json) (raw : Frame) (rawText : Str) :
    published [.handed symbol raw rawText] = [] := rfl

@[simp] theorem handed_published (tick : Tick) : handed [.published tick] = [] := rfl

@[simp] theorem published_published (tick : Tick) : published [.published tick] = [tick] := rfl

/-- A tick is a normalization of a message: `normalize` returns it for some counters and clock, and
it can be written. -/
def Normalizes (raw : Frame) (tick : Tick) : Prop :=
  ∃ data sequences exchangeNow ingestNow, raw.loads = .ok (.dict data) ∧
    AsyncIngestor.isRelevant (Json.get data "type".toList) = .ok true ∧
    (normalize sequences data (Json.get data "type".toList) exchangeNow ingestNow).1
      = .ok (some tick) ∧ tick.encodable = true

/-- The published ticks are normalizations of messages handed to the hook before, in order. -/
def Backed (log : List Event) : Prop :=
  ∃ raws, List.Sublist raws (handed log) ∧ List.Forall₂ Normalizes raws (published log)

/-- An event that is no tick leaves a backed log backed. -/
theorem Backed.record {log : List Event} (h : Backed log) {e : Event} (he : published [e] = []) :
    Backed (log ++ [e]) := by
  obtain ⟨raws, hsub, hticks⟩ := h
  refine ⟨raws, ?_, ?_⟩
  · rw [handed_append]
    exact hsub.trans (List.sublist_append_left _ _)
  · rw [published_append, he, List.append_nil]
    exact hticks

/-- A message handed over and then its tick leave a backed log backed. -/
theorem Backed.publish {log : List Event} (h : Backed log) {raw : Frame} {tick : Tick}
    (symbol : Json) (rawText : Str) (hnormalizes : Normalizes raw tick) :
    Backed (log ++ [.handed symbol raw rawText] ++ [.published tick]) := by
  obtain ⟨raws, hsub, hticks⟩ := h
  refine ⟨raws ++ [raw], ?_, ?_⟩
  · rw [handed_append, handed_append, handed_handed, handed_published, List.append_nil]
    exact hsub.append_right [raw]
  · rw [published_append, published_append, published_handed, published_published,
      List.append_nil]
    exact List.rel_append hticks (.cons hnormalizes .nil)

namespace AsyncIngestor

/-! ## What handling a message can do -/

/-- The ingestor after the bronze capture: as before, or with the message handed to the hook. -/
def Captured (ing : AsyncIngestor) (a : Arrival) (ing' : AsyncIngestor) : Prop :=
  ing' = ing ∨ ∃ symbol rawText, ing' = ing.record (.handed symbol a.raw rawText)

/-- What `_handle_message` can do: nothing beyond the capture, raise with a number drawn, or get a
tick into the stream under the next number of its symbol. -/
inductive Effect (ing : AsyncIngestor) (a : Arrival) : Except PyError Unit → AsyncIngestor → Prop
  | captured {result : Except PyError Unit} {ing' : AsyncIngestor}
    (hcapture : ing.Captured a ing') : Effect ing a result ing'
  | raised {e : PyError} {ing' : AsyncIngestor} (sequences : Str → ℕ)
    (hcapture : ing.Captured a ing') (hfatal : e.disconnects = false) :
    Effect ing a (.error e) { ing' with sequences }
  | published {result : Except PyError Unit} {ing' : AsyncIngestor} {tick : Tick}
    (totalPublished : ℕ) (hcapture : ing.Captured a ing')
    (hhook : ing.onRawMessage →
      ∃ symbol rawText, ing' = ing.record (.handed symbol a.raw rawText))
    (hnormalizes : Normalizes a.raw tick)
    (hsequence : tick.sequence = ing'.sequences tick.symbol + 1) :
    Effect ing a result
      { ing' with
        sequences := Function.update ing'.sequences tick.symbol (ing'.sequences tick.symbol + 1)
        stream := (StreamPublisher.publish ing'.stream tick).1
        totalPublished
        log := ing'.log ++ [.published tick] }

theorem captured_capture (ing : AsyncIngestor) (symbol : Json) (a : Arrival) :
    ing.Captured a (ing.capture symbol a).2 := by
  rw [capture]
  split
  · split
    · exact .inl rfl
    · dsimp only
      split
      · exact .inr ⟨_, _, rfl⟩
      · exact .inr ⟨_, _, rfl⟩
  · exact .inl rfl

/-- Where there is a hook and a product id, a capture that does not raise hands the message over. -/
theorem capture_hook {ing : AsyncIngestor} {symbol : Json} {a : Arrival} (hhook : ing.onRawMessage)
    (hsymbol : symbol.isNone = false) (hok : (ing.capture symbol a).1 = .ok ()) :
    ∃ rawText, (ing.capture symbol a).2 = ing.record (.handed symbol a.raw rawText) := by
  rw [capture, hsymbol, hhook] at *
  simp only [Bool.not_false, Bool.and_self, if_true] at hok ⊢
  split at hok
  · cases hok
  · rename_i rawText hraw
    refine ⟨rawText, ?_⟩
    split
    · rfl
    · rfl

/-- The symbol of a message that `normalize` makes a tick of is there. -/
theorem isNone_of_fields {data : Dict} {msgType : Json} {exchangeNow : Time} {f : Fields}
    (h : fields data msgType exchangeNow = .ok (some f)) :
    (Json.get data "product_id".toList).isNone = false := by
  rw [fields] at h
  dsimp only at h
  split at h
  · cases h
  · rename_i hnone
    rw [Bool.not_eq_true, Bool.or_eq_false_iff] at hnone
    exact hnone.1

theorem effect_publish {ing ing' : AsyncIngestor} {a : Arrival} {sequences : Str → ℕ} {tick : Tick}
    (hcapture : ing.Captured a ing')
    (hhook : ing.onRawMessage →
      ∃ symbol rawText, ing' = ing.record (.handed symbol a.raw rawText))
    (hnormalizes : tick.encodable = true → Normalizes a.raw tick)
    (hsequence : tick.sequence = ing'.sequences tick.symbol + 1)
    (hsequences : sequences
      = Function.update ing'.sequences tick.symbol (ing'.sequences tick.symbol + 1)) :
    Effect ing a (publish { ing' with sequences } tick a.xadd).1
      (publish { ing' with sequences } tick a.xadd).2 := by
  subst hsequences
  by_cases hencodable : tick.encodable = true
  · rw [publish.eq_def, if_pos hencodable]
    cases hxadd : a.xadd with
    | answered =>
      exact .published (ing'.totalPublished + 1) hcapture hhook (hnormalizes hencodable) hsequence
    | failed stored =>
      cases stored with
      | true =>
        exact .published ing'.totalPublished hcapture hhook (hnormalizes hencodable) hsequence
      | false => exact .raised _ hcapture rfl
  · rw [publish.eq_def, if_neg hencodable]
    exact .raised _ hcapture rfl

/-- **What handling a message can do.** -/
theorem effect_handleMessage (ing : AsyncIngestor) (a : Arrival) :
    Effect ing a (ing.handleMessage a).1 (ing.handleMessage a).2 := by
  rw [handleMessage]
  split
  · exact .captured (.inl rfl)
  · rename_i data hloads
    split
    · exact .captured (.inl rfl)
    · exact .captured (.inl rfl)
    · rename_i hrelevant
      have hcapture := ing.captured_capture (Json.get data "product_id".toList) a
      have hhook := @capture_hook ing (Json.get data "product_id".toList) a
      split
      · rename_i e ing' hcap
        rw [hcap] at hcapture
        exact .captured hcapture
      · rename_i ing' hcap
        rw [hcap] at hcapture hhook
        rw [normalizeAndPublish]
        split
        · exact .raised _ hcapture rfl
        · rename_i sequences hnone
          rw [normalize_none hnone]
          exact .captured hcapture
        · rename_i tick sequences hsome
          obtain ⟨f, symbol, hf, -⟩ := normalize_eq_ok_iff.mp hsome
          obtain ⟨hsequence, hsequences⟩ := normalize_ok hsome
          refine effect_publish hcapture (fun h ↦ ?_) ?_ hsequence hsequences
          · obtain ⟨rawText, heq⟩ := hhook h (isNone_of_fields hf) rfl
            exact ⟨_, rawText, heq⟩
          · exact fun hencodable ↦ ⟨data, _, _, _, hloads, hrelevant, by rw [hsome], hencodable⟩
  · exact .captured (.inl rfl)

/-! ## Induction over a run -/

/-- What is left after a message or a connection: `P` where the run goes on, `Q` where it ends. -/
def After (P Q : AsyncIngestor → Prop) : Except PyError Unit → AsyncIngestor → Prop
  | .ok (), ing => P ing
  | .error e, ing => Q ing ∧ (e.disconnects → P ing)

/-- `P` holds between messages and `Q` throughout: a message keeps `P` or ends the run. -/
structure Kept (P Q : AsyncIngestor → Prop) : Prop where
  always : ∀ {ing}, P ing → Q ing
  message : ∀ {ing} (a : Arrival), P ing →
    After P Q (ing.handleMessage a).1 (ing.handleMessage a).2
  subscribe : ∀ {ing}, P ing → P ing.subscribe
  slept : ∀ {ing} (backoff : ℕ), P ing → P (ing.record (.slept backoff))

namespace Kept

variable {P Q : AsyncIngestor → Prop} (h : Kept P Q)

include h

theorem after {ing : AsyncIngestor} (hP : P ing) (result : Except PyError Unit) :
    After P Q result ing := by
  cases result with
  | ok => exact hP
  | error e => exact ⟨h.always hP, fun _ ↦ hP⟩

theorem receive (ending : Option PyError) (arrivals : List Arrival) {ing : AsyncIngestor}
    (hP : P ing) : After P Q (ing.receive ending arrivals).1 (ing.receive ending arrivals).2 := by
  induction arrivals generalizing ing with
  | nil =>
    cases ending with
    | none => exact h.after hP _
    | some e => exact h.after hP _
  | cons a rest ih =>
    have hmessage := h.message a hP
    rw [AsyncIngestor.receive]
    split
    · rename_i e ing' heq
      rw [heq] at hmessage
      exact hmessage
    · rename_i ing' heq
      rw [heq] at hmessage
      exact ih hmessage

theorem connect (backoff : ℕ) (c : Connection) {ing : AsyncIngestor} (hP : P ing) :
    After P Q (ing.connect backoff c).1 (ing.connect backoff c).2.2 := by
  cases c with
  | refused e => exact h.after hP _
  | notSubscribed e => exact h.after hP _
  | opened arrivals ending => exact h.receive ending arrivals (h.subscribe hP)

theorem loop (maxReconnects : Option ℕ) (script : List Connection) {backoff attempts : ℕ}
    {ing : AsyncIngestor} (hP : P ing) : Q (loop maxReconnects backoff attempts ing script).2 := by
  induction script generalizing backoff attempts ing with
  | nil =>
    rw [AsyncIngestor.loop]
    split
    · exact h.always hP
    · exact h.always hP
  | cons c rest ih =>
    have hconnect := h.connect backoff c hP
    rw [AsyncIngestor.loop]
    split
    · split
      · rename_i backoff' ing' heq
        rw [heq] at hconnect
        exact ih hconnect
      · rename_i e backoff' ing' heq
        rw [heq] at hconnect
        split
        · rename_i hdisconnects
          exact ih (h.slept _ (hconnect.2 hdisconnects))
        · exact hconnect.1
    · exact h.always hP

/-- **What a run keeps.** -/
theorem run {ing : AsyncIngestor} (hP : P ing) (maxReconnects : Option ℕ)
    (script : List Connection) : Q (ing.run maxReconnects script).2 :=
  h.loop maxReconnects script hP

end Kept

/-! ## The numbers -/

/-- The log is numbered, and the stream has gained its ticks. -/
structure Published (base : List Entry) (ing : AsyncIngestor) : Prop where
  numbered : Numbered Tick.symbol Tick.sequence (published ing.log)
  entries : ing.stream.entries = base ++ (published ing.log).map fun tick ↦ ⟨some tick⟩

/-- Between messages the counters are in step with the log. -/
structure InStep (base : List Entry) (ing : AsyncIngestor) : Prop extends Published base ing where
  counts : Counts Tick.symbol ing.sequences (published ing.log)

variable {base : List Entry}

theorem InStep.record {ing : AsyncIngestor} (h : ing.InStep base) {e : Event}
    (he : published [e] = []) : (ing.record e).InStep base := by
  have hlog : published (ing.record e).log = published ing.log := by
    rw [AsyncIngestor.record, published_append, he, List.append_nil]
  refine ⟨⟨?_, ?_⟩, ?_⟩
  · rw [hlog]
    exact h.numbered
  · rw [hlog]
    exact h.entries
  · rw [hlog]
    exact h.counts

theorem InStep.captured {ing ing' : AsyncIngestor} {a : Arrival} (h : ing.InStep base)
    (hcapture : ing.Captured a ing') : ing'.InStep base := by
  rcases hcapture with rfl | ⟨symbol, rawText, rfl⟩
  · exact h
  · exact h.record rfl

/-- A message keeps the counters in step with the log, or ends the run with the log numbered. -/
theorem InStep.message {ing : AsyncIngestor} (h : ing.InStep base) {a : Arrival}
    {result : Except PyError Unit} {ing' : AsyncIngestor} (heffect : Effect ing a result ing') :
    After (InStep base) (Published base) result ing' := by
  have hafter : ∀ {ing'}, ing'.InStep base → After (InStep base) (Published base) result ing' := by
    intro ing' h'
    cases result with
    | ok => exact h'
    | error e => exact ⟨h'.toPublished, fun _ ↦ h'⟩
  cases heffect with
  | captured hcapture => exact hafter (h.captured hcapture)
  | raised sequences hcapture hfatal =>
    have h' := h.captured hcapture
    refine ⟨⟨h'.numbered, h'.entries⟩, fun hdisconnects ↦ ?_⟩
    rw [hfatal] at hdisconnects
    cases hdisconnects
  | @published _ ing' tick total hcapture hhook hnormalizes hsequence =>
    have h' := h.captured hcapture
    refine hafter ⟨⟨?_, ?_⟩, ?_⟩
    · rw [published_append, published_published]
      exact h'.numbered.concat (by rw [hsequence, h'.counts])
    · rw [published_append, published_published, List.map_append, ← List.append_assoc,
        ← h'.entries]
      rfl
    · rw [published_append, published_published]
      exact h'.counts.concat tick

theorem kept_inStep (base : List Entry) : Kept (InStep base) (Published base) where
  always h := h.toPublished
  message a h := h.message (effect_handleMessage _ a)
  subscribe h := h.record rfl
  slept _ h := h.record rfl

/-! ## The messages behind the ticks -/

/-- There is a hook, and the log was backed at every point of it. -/
structure BackedThroughout (ing : AsyncIngestor) : Prop where
  hook : ing.onRawMessage
  backed : ∀ log, log <+: ing.log → Backed log

/-- What holds of a log at every point of it still does after one more event, if it holds then. -/
theorem forall_prefix_concat {P : List Event → Prop} {log : List Event} {e : Event}
    (h : ∀ l, l <+: log → P l) (he : P (log ++ [e])) : ∀ l, l <+: log ++ [e] → P l := by
  intro l hl
  rcases List.prefix_concat_iff.mp hl with rfl | hl
  · exact he
  · exact h l hl

theorem BackedThroughout.record {ing : AsyncIngestor} (h : ing.BackedThroughout) {e : Event}
    (he : published [e] = []) : (ing.record e).BackedThroughout where
  hook := h.hook
  backed := forall_prefix_concat h.backed ((h.backed _ (List.prefix_refl _)).record he)

theorem BackedThroughout.captured {ing ing' : AsyncIngestor} {a : Arrival}
    (h : ing.BackedThroughout) (hcapture : ing.Captured a ing') : ing'.BackedThroughout := by
  rcases hcapture with rfl | ⟨symbol, rawText, rfl⟩
  · exact h
  · exact h.record rfl

theorem BackedThroughout.message {ing ing' : AsyncIngestor} (h : ing.BackedThroughout)
    {a : Arrival} {result : Except PyError Unit} (heffect : Effect ing a result ing') :
    ing'.BackedThroughout := by
  cases heffect with
  | captured hcapture => exact h.captured hcapture
  | raised sequences hcapture _ =>
    have h' := h.captured hcapture
    exact ⟨h'.hook, h'.backed⟩
  | @published _ ing' tick total hcapture hhook hnormalizes hsequence =>
    have h' := h.captured hcapture
    refine ⟨h'.hook, forall_prefix_concat h'.backed ?_⟩
    -- the message was handed over just before its tick
    obtain ⟨symbol, rawText, rfl⟩ := hhook h.hook
    exact (h.backed _ (List.prefix_refl _)).publish symbol rawText hnormalizes

theorem kept_backedThroughout : Kept BackedThroughout BackedThroughout where
  always h := h
  message {ing} a h := by
    have h' := h.message (effect_handleMessage ing a)
    cases hresult : (ing.handleMessage a).1 with
    | ok => exact h'
    | error e => exact ⟨h', fun _ ↦ h'⟩
  subscribe h := h.record rfl
  slept _ h := h.record rfl

/-! ## The main result -/

/-- An ingestor as `__init__` leaves it, on a stream that may hold anything. -/
def init (symbols : List Str) (onRawMessage : Bool) (stream : TickStream) : AsyncIngestor :=
  { symbols, onRawMessage, stream }

theorem inStep_init (symbols : List Str) (onRawMessage : Bool) (stream : TickStream) :
    (init symbols onRawMessage stream).InStep stream.entries where
  numbered := .nil
  entries := (List.append_nil _).symm
  counts := .nil

theorem backedThroughout_init (symbols : List Str) (stream : TickStream) :
    (init symbols true stream).BackedThroughout where
  hook := rfl
  backed log hlog := by
    rw [List.prefix_nil.mp hlog]
    exact ⟨[], List.nil_sublist _, .nil⟩

/-- **The numbering of a run is free of gaps and backed by bronze.**  Whatever arrives and however
the run ends, at every point of it the ticks published for a symbol carry the numbers `1, …, n` in
order, and the published ticks are normalizations of messages the hook was handed before, in the
same order.  The entries the stream has gained are the published ticks. -/
theorem run_gap_free_and_backed (symbols : List Str) (stream : TickStream)
    (maxReconnects : Option ℕ) (script : List Connection) :
    (((init symbols true stream).run maxReconnects script).2.stream.entries = stream.entries ++
      (published ((init symbols true stream).run maxReconnects script).2.log).map
        fun tick ↦ ⟨some tick⟩) ∧
    ∀ log, log <+: ((init symbols true stream).run maxReconnects script).2.log →
      (∀ symbol, ((published log).filter fun tick ↦ tick.symbol = symbol).map Tick.sequence =
        oneTo ((published log).countP fun tick ↦ tick.symbol = symbol)) ∧
      ∃ raws, List.Sublist raws (handed log) ∧ List.Forall₂ Normalizes raws (published log) := by
  have hpublished := (kept_inStep stream.entries).run (inStep_init symbols true stream)
    maxReconnects script
  have hbacked := kept_backedThroughout.run (backedThroughout_init symbols stream)
    maxReconnects script
  refine ⟨hpublished.entries, fun log hlog ↦ ⟨?_, hbacked.backed log hlog⟩⟩
  obtain ⟨rest, hrest⟩ := hlog
  refine hpublished.numbered.of_prefix ?_
  rw [← hrest, published_append]
  exact List.prefix_append _ _

end AsyncIngestor

end PostTrade
