import PostTrade.Ingest.Publication

/-!
# Reconnecting

`run` counts its attempts and sleeps where it catches an exception, and only there.  A server that
closes a connection cleanly ends `async for raw in ws` without one, so the loop goes round with
neither: the next attempt is not counted and follows at once.

A `timeline` is what a run does between the server and the clock.  `bounded_backoff_iff` says when
it is as it should be, at most `k + 1` attempts with a growing delay between any two: exactly when
no connection the run comes to is closed cleanly with another attempt to follow.
-/

set_option autoImplicit false

namespace PostTrade

/-- `_subscribe` returns on this connection. -/
def Connection.subscribed : Connection → Bool
  | .opened _ _ => true
  | _ => false

namespace AsyncIngestor

/-! ## Timelines -/

/-- A step of a run between the server and the clock. -/
inductive Move
  /-- A connection attempt, and whether it got as far as being subscribed. -/
  | attempt (subscribed : Bool)
  | slept (backoff : ℕ)
  deriving DecidableEq

/-- The moves of `loop`, which runs over the same script. -/
def timeline (maxReconnects : Option ℕ) : ℕ → ℕ → AsyncIngestor → List Connection → List Move
  | _, _, _, [] => []
  | backoff, attempts, ing, c :: rest =>
    if maxReconnects.all (attempts ≤ ·) then
      .attempt c.subscribed ::
        match ing.connect backoff c with
        | (.ok (), backoff, ing) => timeline maxReconnects backoff attempts ing rest
        | (.error e, backoff, ing) =>
          if e.disconnects then
            .slept backoff :: timeline maxReconnects (min (backoff * 2) maxBackoff) (attempts + 1)
              (ing.record (.slept backoff)) rest
          else []
    else []

/-- How many connections a timeline opens. -/
def attempts (moves : List Move) : ℕ :=
  moves.countP fun move ↦
    match move with
    | .attempt _ => true
    | .slept _ => false

/-- The delays of a timeline. -/
def delays (moves : List Move) : List ℕ :=
  moves.filterMap fun move ↦
    match move with
    | .attempt _ => none
    | .slept backoff => some backoff

/-- The delays of a log. -/
def slept (log : List Event) : List ℕ :=
  log.filterMap fun e ↦
    match e with
    | .slept backoff => some backoff
    | _ => none

@[simp] theorem slept_append (xs ys : List Event) : slept (xs ++ ys) = slept xs ++ slept ys :=
  List.filterMap_append

/-! ## What a connection leaves as it was -/

/-- Neither the hook nor the delays so far are touched. -/
structure Calm (ing ing' : AsyncIngestor) : Prop where
  onRawMessage : ing'.onRawMessage = ing.onRawMessage
  slept : slept ing'.log = slept ing.log

theorem Calm.refl (ing : AsyncIngestor) : Calm ing ing := ⟨rfl, rfl⟩

theorem Calm.trans {ing₁ ing₂ ing₃ : AsyncIngestor} (h : Calm ing₁ ing₂) (h' : Calm ing₂ ing₃) :
    Calm ing₁ ing₃ :=
  ⟨h'.onRawMessage.trans h.onRawMessage, h'.slept.trans h.slept⟩

theorem Calm.record (ing : AsyncIngestor) {e : Event} (he : AsyncIngestor.slept [e] = []) :
    Calm ing (ing.record e) := by
  refine ⟨rfl, ?_⟩
  rw [AsyncIngestor.record, slept_append, he, List.append_nil]

theorem Captured.calm {ing ing' : AsyncIngestor} {a : Arrival} (h : ing.Captured a ing') :
    Calm ing ing' := by
  rcases h with rfl | ⟨symbol, rawText, rfl⟩
  · exact .refl ing'
  · exact .record ing rfl

theorem Effect.calm {ing ing' : AsyncIngestor} {a : Arrival} {result : Except PyError Unit}
    (h : Effect ing a result ing') : Calm ing ing' := by
  cases h with
  | captured hcapture => exact hcapture.calm
  | raised sequences hcapture _ => exact hcapture.calm.trans ⟨rfl, rfl⟩
  | published total hcapture _ _ _ =>
    refine hcapture.calm.trans ⟨rfl, ?_⟩
    rw [slept_append]
    exact List.append_nil _

theorem calm_handleMessage (ing : AsyncIngestor) (a : Arrival) :
    Calm ing (ing.handleMessage a).2 := (ing.effect_handleMessage a).calm

theorem calm_receive (ending : Option PyError) (arrivals : List Arrival) (ing : AsyncIngestor) :
    Calm ing (ing.receive ending arrivals).2 := by
  induction arrivals generalizing ing with
  | nil =>
    cases ending with
    | none => exact .refl ing
    | some e => exact .refl ing
  | cons a rest ih =>
    have hcalm := ing.calm_handleMessage a
    rw [receive]
    split
    · rename_i e ing' heq
      rwa [heq] at hcalm
    · rename_i ing' heq
      rw [heq] at hcalm
      exact hcalm.trans (ih ing')

theorem calm_connect (ing : AsyncIngestor) (backoff : ℕ) (c : Connection) :
    Calm ing (ing.connect backoff c).2.2 := by
  cases c with
  | refused e => exact .refl ing
  | notSubscribed e => exact .refl ing
  | opened arrivals ending => exact (Calm.record ing rfl).trans (calm_receive ending arrivals _)

/-! ## How a connection ends -/

/-- Whether `normalize` and the XADD raise is decided by the message. -/
theorem normalizeAndPublish_result (ing ing' : AsyncIngestor) (data : Dict) (a : Arrival) :
    (ing'.normalizeAndPublish data a).1 = (ing.normalizeAndPublish data a).1 := by
  have hsome := normalize_encodable ing'.sequences ing.sequences data (Python.Json.get data
    "type".toList) a.exchangeNow a.ingestNow
  rw [normalizeAndPublish, normalizeAndPublish]
  generalize normalize ing'.sequences data _ a.exchangeNow a.ingestNow = result' at hsome ⊢
  generalize normalize ing.sequences data _ a.exchangeNow a.ingestNow = result at hsome ⊢
  obtain ⟨_ | _ | tick', sequences'⟩ := result'
  · obtain ⟨_ | tick, sequences⟩ := result
    · cases hsome
      rfl
    · cases hsome
  · obtain ⟨_ | _ | tick, sequences⟩ := result
    · cases hsome
    · rfl
    · cases hsome
  · obtain ⟨_ | _ | tick, sequences⟩ := result
    · cases hsome
    · cases hsome
    · exact publish_result (Option.some.inj (Except.ok.inj hsome))

theorem capture_result {ing ing' : AsyncIngestor} (h : ing'.onRawMessage = ing.onRawMessage)
    (symbol : Python.Json) (a : Arrival) :
    (ing'.capture symbol a).1 = (ing.capture symbol a).1 := by
  rw [capture, capture, h]
  split
  · cases a.raw.rawText with
    | error e => rfl
    | ok rawText =>
      cases a.hookRaises with
      | none => rfl
      | some e => rfl
  · rfl

theorem handleMessage_result {ing ing' : AsyncIngestor}
    (h : ing'.onRawMessage = ing.onRawMessage) (a : Arrival) :
    (ing'.handleMessage a).1 = (ing.handleMessage a).1 := by
  rw [handleMessage, handleMessage]
  split
  · rfl
  · rename_i data _
    split
    · rfl
    · rfl
    · have hcapture := capture_result h (Python.Json.get data "product_id".toList) a
      generalize ing'.capture _ a = captured' at hcapture ⊢
      generalize ing.capture _ a = captured at hcapture ⊢
      obtain ⟨_ | _, ing₁'⟩ := captured'
      · obtain ⟨_ | _, ing₁⟩ := captured
        · exact hcapture
        · cases hcapture
      · obtain ⟨_ | _, ing₁⟩ := captured
        · cases hcapture
        · exact normalizeAndPublish_result ing₁ ing₁' data a
  · rfl

theorem receive_result (ending : Option PyError) (arrivals : List Arrival)
    {ing ing' : AsyncIngestor} (h : ing'.onRawMessage = ing.onRawMessage) :
    (ing'.receive ending arrivals).1 = (ing.receive ending arrivals).1 := by
  induction arrivals generalizing ing ing' with
  | nil =>
    cases ending with
    | none => rfl
    | some e => rfl
  | cons a rest ih =>
    have hmessage := handleMessage_result h a
    have hcalm := (ing.calm_handleMessage a).onRawMessage
    have hcalm' := (ing'.calm_handleMessage a).onRawMessage
    rw [receive, receive]
    generalize ing'.handleMessage a = handled' at hmessage hcalm' ⊢
    generalize ing.handleMessage a = handled at hmessage hcalm ⊢
    obtain ⟨_ | _, ing₁'⟩ := handled'
    · obtain ⟨_ | _, ing₁⟩ := handled
      · exact hmessage
      · cases hmessage
    · obtain ⟨_ | _, ing₁⟩ := handled
      · cases hmessage
      · exact ih ((hcalm'.trans h).trans hcalm.symm)

/-- How the connection ends for an ingestor, which is the same at every point of its run. -/
def outcome (ing : AsyncIngestor) (c : Connection) : Except PyError Unit := (ing.connect 1 c).1

theorem connect_result {ing ing' : AsyncIngestor} (h : ing'.onRawMessage = ing.onRawMessage)
    (backoff : ℕ) (c : Connection) : (ing'.connect backoff c).1 = ing.outcome c := by
  cases c with
  | refused e => rfl
  | notSubscribed e => rfl
  | opened arrivals ending => exact receive_result ending arrivals h

/-- The body of the `try` resets the backoff where it comes to that line. -/
theorem connect_backoff (ing : AsyncIngestor) (backoff : ℕ) (c : Connection) :
    (ing.connect backoff c).2.1 = if c.subscribed then 1 else backoff := by
  cases c with
  | refused e => rfl
  | notSubscribed e => rfl
  | opened arrivals ending => rfl

/-- The connection ends in an exception that `run` catches. -/
def Disconnects (ing : AsyncIngestor) (c : Connection) : Prop :=
  ∃ e, ing.outcome c = .error e ∧ e.disconnects

/-! ## The moves of a run -/

section Moves

variable {ing base : AsyncIngestor} (h : ing.onRawMessage = base.onRawMessage) (k : ℕ)
  {attempts : ℕ} (hattempts : attempts ≤ k) (backoff : ℕ) {c : Connection} (rest : List Connection)

include h hattempts

/-- A clean close leads straight to the next attempt. -/
theorem timeline_ok (hc : base.outcome c = .ok ()) :
    ∃ ing' : AsyncIngestor, ing'.onRawMessage = base.onRawMessage ∧
      timeline (some k) backoff attempts ing (c :: rest) = .attempt c.subscribed ::
        timeline (some k) (if c.subscribed then 1 else backoff) attempts ing' rest := by
  have hresult := connect_result h backoff c
  have hbackoff := ing.connect_backoff backoff c
  have hcalm := (ing.calm_connect backoff c).onRawMessage
  rw [hc] at hresult
  rw [timeline, if_pos (by simpa using hattempts)]
  generalize ing.connect backoff c = connected at hresult hbackoff hcalm ⊢
  obtain ⟨result, backoff', ing'⟩ := connected
  dsimp only at hresult hbackoff hcalm
  subst hresult hbackoff
  exact ⟨ing', hcalm.trans h, rfl⟩

/-- A disconnect is counted, slept on and backed off from. -/
theorem timeline_disconnects (hc : base.Disconnects c) :
    ∃ ing' : AsyncIngestor, ing'.onRawMessage = base.onRawMessage ∧
      timeline (some k) backoff attempts ing (c :: rest) = .attempt c.subscribed ::
        .slept (if c.subscribed then 1 else backoff) ::
          timeline (some k) (min ((if c.subscribed then 1 else backoff) * 2) maxBackoff)
            (attempts + 1) ing' rest := by
  obtain ⟨e, he, hdisconnects⟩ := hc
  have hresult := connect_result h backoff c
  have hbackoff := ing.connect_backoff backoff c
  have hcalm := (ing.calm_connect backoff c).onRawMessage
  rw [he] at hresult
  rw [timeline, if_pos (by simpa using hattempts)]
  generalize ing.connect backoff c = connected at hresult hbackoff hcalm ⊢
  obtain ⟨result, backoff', ing'⟩ := connected
  dsimp only at hresult hbackoff hcalm
  subst hresult hbackoff
  refine ⟨ing'.record (.slept (if c.subscribed then 1 else backoff)), hcalm.trans h, ?_⟩
  simp only [hdisconnects, if_true]

/-- Any other exception ends the run. -/
theorem timeline_fatal {e : PyError} (he : base.outcome c = .error e)
    (hfatal : e.disconnects = false) :
    timeline (some k) backoff attempts ing (c :: rest) = [.attempt c.subscribed] := by
  have hresult := connect_result h backoff c
  rw [he] at hresult
  rw [timeline, if_pos (by simpa using hattempts)]
  generalize ing.connect backoff c = connected at hresult ⊢
  obtain ⟨result, backoff', ing'⟩ := connected
  dsimp only at hresult
  subst hresult
  simp only [hfatal, Bool.false_eq_true, if_false]

omit h hattempts

/-- After `k + 1` disconnects nothing moves. -/
theorem timeline_exhausted (hexhausted : k < attempts) (script : List Connection) :
    timeline (some k) backoff attempts ing script = [] := by
  cases script with
  | nil => rfl
  | cons c rest => rw [timeline, if_neg (by simpa using hexhausted)]

end Moves

/-! ## When the moves are as they should be -/

/-- Between two attempts there is one delay, of at least a second: one second after a successful
subscribe, and `next` otherwise, which doubles with every delay up to `maxBackoff`. -/
def BackedOff : ℕ → List Move → Prop
  | _, [] => True
  | _, [.attempt _] => True
  | next, .attempt subscribed :: .slept d :: rest =>
    1 ≤ d ∧ d = (if subscribed then 1 else next) ∧ BackedOff (min (d * 2) maxBackoff) rest
  | _, _ => False

/-- No clean close has an attempt after it: where the first connections end in exceptions that are
caught, at most `k` of them, and the next one is closed cleanly, that one is the last. -/
def NoAttemptAfterCleanClose (ing : AsyncIngestor) (k : ℕ) (script : List Connection) : Prop :=
  ∀ before c after, script = before ++ c :: after → before.length ≤ k →
    (∀ d ∈ before, ing.Disconnects d) → ing.outcome c = .ok () → after = []

/-- Nothing may come after a connection that is closed cleanly. -/
theorem noAttemptAfterCleanClose_of_ok {ing : AsyncIngestor} {k : ℕ} {c : Connection}
    {rest : List Connection} (hc : ing.outcome c = .ok ()) :
    NoAttemptAfterCleanClose ing k (c :: rest) ↔ rest = [] := by
  constructor
  · intro h
    exact h [] c rest rfl (Nat.zero_le _) (by simp) hc
  · rintro rfl before d after hsplit - - -
    have hlength := congrArg List.length hsplit
    simp only [List.length_append, List.length_cons, List.length_nil] at hlength
    exact List.length_eq_zero_iff.mp (by omega)

/-- An attempt straight after an attempt is not backed off from. -/
theorem backedOff_attempt_timeline_iff {ing : AsyncIngestor} {k attempts backoff next : ℕ}
    {subscribed : Bool} {rest : List Connection} (hattempts : attempts ≤ k) :
    BackedOff next (.attempt subscribed :: timeline (some k) backoff attempts ing rest) ↔
      rest = [] := by
  cases rest with
  | nil => exact iff_of_true trivial rfl
  | cons c rest =>
    rw [timeline, if_pos (by simpa using hattempts)]
    exact iff_of_false id (List.cons_ne_nil c rest)

/-- A connection that raises is not the one that is closed cleanly. -/
theorem exists_cons_of_split {ing : AsyncIngestor} {c d : Connection} {e : PyError}
    {rest before after : List Connection} (hc : ing.outcome c = .error e)
    (hd : ing.outcome d = .ok ()) (hsplit : c :: rest = before ++ d :: after) :
    ∃ before', before = c :: before' ∧ rest = before' ++ d :: after := by
  cases before with
  | nil =>
    obtain ⟨rfl, -⟩ := List.cons.inj hsplit
    rw [hd] at hc
    cases hc
  | cons c' before =>
    obtain ⟨rfl, hrest⟩ := List.cons.inj hsplit
    exact ⟨before, rfl, hrest⟩

/-- After the last disconnect that is counted, or an exception that is not caught, no other
connection is opened. -/
theorem noAttemptAfterCleanClose_of_error {ing : AsyncIngestor} {k : ℕ} {c : Connection}
    {e : PyError} (hc : ing.outcome c = .error e) (hends : k = 0 ∨ e.disconnects = false)
    (rest : List Connection) : NoAttemptAfterCleanClose ing k (c :: rest) := by
  intro before d after hsplit hlength hbefore hd
  obtain ⟨before', rfl, -⟩ := exists_cons_of_split hc hd hsplit
  rcases hends with rfl | hfatal
  · simp at hlength
  · obtain ⟨e', he', hdisconnects⟩ := hbefore c List.mem_cons_self
    rw [hc] at he'
    cases he'
    rw [hfatal] at hdisconnects
    cases hdisconnects

theorem noAttemptAfterCleanClose_cons {ing : AsyncIngestor} {k : ℕ} {c : Connection}
    {rest : List Connection} (hc : ing.Disconnects c) :
    NoAttemptAfterCleanClose ing (k + 1) (c :: rest) ↔ NoAttemptAfterCleanClose ing k rest := by
  constructor
  · intro h before d after heq hlength hbefore
    refine h (c :: before) d after (by rw [heq]; rfl) (by simpa using hlength) ?_
    exact List.forall_mem_cons.mpr ⟨hc, hbefore⟩
  · intro h before d after heq hlength hbefore hclean
    obtain ⟨e, he, -⟩ := hc
    obtain ⟨before', rfl, hrest⟩ := exists_cons_of_split he hclean heq
    exact h before' d after hrest (by simpa using hlength)
      (List.forall_mem_cons.mp hbefore).2 hclean

/-- **Attempts and delays of the loop.**  The loop with `attempts` behind it and `backoff` to wait
opens no more connections than are left, and backs off before each, exactly when no clean close has
an attempt after it. -/
theorem timeline_iff {ing base : AsyncIngestor} (h : ing.onRawMessage = base.onRawMessage)
    (left : ℕ) {n backoff : ℕ} (hbackoff : 1 ≤ backoff) (script : List Connection) :
    (attempts (timeline (some (n + left)) backoff n ing script) ≤ left + 1 ∧
        BackedOff backoff (timeline (some (n + left)) backoff n ing script)) ↔
      NoAttemptAfterCleanClose base left script := by
  induction script generalizing ing left n backoff with
  | nil => simp [timeline, attempts, BackedOff, NoAttemptAfterCleanClose]
  | cons c rest ih =>
    cases hc : base.outcome c with
    | ok =>
      obtain ⟨ing', h', heq⟩ := timeline_ok h (n + left) (Nat.le_add_right n left) backoff rest hc
      rw [heq, noAttemptAfterCleanClose_of_ok hc,
        backedOff_attempt_timeline_iff (Nat.le_add_right n left), and_iff_right_iff_imp]
      rintro rfl
      simp [timeline, attempts]
    | error e =>
      by_cases hdisconnects : e.disconnects
      · obtain ⟨ing', h', heq⟩ := timeline_disconnects h (n + left) (Nat.le_add_right n left)
          backoff rest ⟨e, hc, hdisconnects⟩
        rw [heq]
        have hdelay : 1 ≤ if c.subscribed then 1 else backoff := by
          split
          · exact le_rfl
          · exact hbackoff
        have hnext : 1 ≤ min ((if c.subscribed then 1 else backoff) * 2) maxBackoff :=
          le_min (by omega) (by decide)
        cases left with
        | zero =>
          rw [timeline_exhausted (n + 0) _ (Nat.lt_succ_self n)]
          refine iff_of_true ⟨?_, hdelay, rfl, trivial⟩
            (noAttemptAfterCleanClose_of_error hc (.inl rfl) rest)
          simp [attempts]
        | succ left =>
          have ih := ih h' left (n := n + 1) hnext
          rw [show n + 1 + left = n + (left + 1) by omega] at ih
          rw [noAttemptAfterCleanClose_cons ⟨e, hc, hdisconnects⟩, ← ih]
          simp only [attempts, List.countP_cons, BackedOff, hdelay, true_and, if_true,
            Bool.false_eq_true, if_false, add_zero, Nat.add_le_add_iff_right]
      · have hfatal : e.disconnects = false := by simpa using hdisconnects
        rw [timeline_fatal h (n + left) (Nat.le_add_right n left) backoff rest hc hfatal]
        refine iff_of_true ⟨?_, trivial⟩
          (noAttemptAfterCleanClose_of_error hc (.inr hfatal) rest)
        simp [attempts]

/-! ## The run -/

/-- The moves of `run`. -/
def moves (ing : AsyncIngestor) (maxReconnects : Option ℕ) (script : List Connection) :
    List Move := timeline maxReconnects 1 0 ing script

/-- The delays of a timeline are those the loop logs, and a loop that goes on has opened every
connection of the script. -/
theorem loop_timeline (maxReconnects : Option ℕ) (backoff n : ℕ) (ing : AsyncIngestor)
    (script : List Connection) :
    slept (loop maxReconnects backoff n ing script).2.log =
        slept ing.log ++ delays (timeline maxReconnects backoff n ing script) ∧
      ((loop maxReconnects backoff n ing script).1 = none →
        attempts (timeline maxReconnects backoff n ing script) = script.length) := by
  induction script generalizing backoff n ing with
  | nil =>
    rw [loop, timeline]
    split
    · simp [delays, attempts]
    · simp [delays]
  | cons c rest ih =>
    have hcalm := ing.calm_connect backoff c
    rw [loop, timeline]
    split
    · generalize ing.connect backoff c = connected at hcalm ⊢
      obtain ⟨_ | _, backoff', ing'⟩ := connected
      · rename_i e
        by_cases hdisconnects : e.disconnects
        · have ih := ih (min (backoff' * 2) maxBackoff) (n + 1) (ing'.record (.slept backoff'))
          simp only [hdisconnects, if_true]
          refine ⟨?_, fun hnone ↦ ?_⟩
          · rw [ih.1, record, slept_append, hcalm.slept, List.append_assoc]
            rfl
          · simpa [attempts] using ih.2 hnone
        · simp only [hdisconnects, Bool.false_eq_true, if_false]
          refine ⟨by rw [hcalm.slept]; exact (List.append_nil _).symm, fun hnone ↦ ?_⟩
          cases hnone
      · have ih := ih backoff' n ing'
        refine ⟨?_, fun hnone ↦ ?_⟩
        · rw [ih.1, hcalm.slept]
          rfl
        · simpa [attempts] using ih.2 hnone
    · refine ⟨(List.append_nil _).symm, fun hnone ↦ ?_⟩
      cases hnone

/-- **The moves are those of `run`.** -/
theorem run_moves (ing : AsyncIngestor) (maxReconnects : Option ℕ) (script : List Connection) :
    slept (ing.run maxReconnects script).2.log =
        slept ing.log ++ delays (ing.moves maxReconnects script) ∧
      ((ing.run maxReconnects script).1 = none →
        attempts (ing.moves maxReconnects script) = script.length) :=
  loop_timeline maxReconnects 1 0 ing script

/-- **When reconnects are bounded and backed off.**  A run allowed `k` reconnects opens at most
`k + 1` connections and sleeps between any two, for one second after a successful subscribe and
otherwise twice as long as before, up to thirty seconds, exactly when no connection it comes to is
closed cleanly with another one to follow. -/
theorem bounded_backoff_iff (ing : AsyncIngestor) (k : ℕ) (script : List Connection) :
    (attempts (ing.moves (some k) script) ≤ k + 1 ∧ BackedOff 1 (ing.moves (some k) script)) ↔
      NoAttemptAfterCleanClose ing k script := by
  have h := timeline_iff (rfl : ing.onRawMessage = ing.onRawMessage) k (n := 0) le_rfl script
  rwa [Nat.zero_add] at h

/-- A server that closes the connection as soon as it is there. -/
def cleanClose : Connection := .opened [] none

/-- With no reconnect allowed, two clean closes make for three attempts and no delay at all. -/
theorem clean_close_unbounded :
    moves (init ["BTC-USD".toList] false {}) (some 0) [cleanClose, cleanClose, cleanClose] =
        [.attempt true, .attempt true, .attempt true] ∧
      ¬ (attempts (moves (init ["BTC-USD".toList] false {}) (some 0)
            [cleanClose, cleanClose, cleanClose]) ≤ 0 + 1 ∧
          BackedOff 1 (moves (init ["BTC-USD".toList] false {}) (some 0)
            [cleanClose, cleanClose, cleanClose])) := by
  have hmoves : moves (init ["BTC-USD".toList] false {}) (some 0)
      [cleanClose, cleanClose, cleanClose] = [.attempt true, .attempt true, .attempt true] := rfl
  rw [hmoves]
  exact ⟨rfl, fun h ↦ absurd h.1 (by decide)⟩

end AsyncIngestor

end PostTrade
