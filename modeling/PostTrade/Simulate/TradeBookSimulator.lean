import PostTrade.Storage

/-!
# The trade book simulator

`simulate/trade_book_simulator.py`.  The simulator consumes the tick stream through its own
consumer group; on a tick it may trade, and a trade may plant one of the three anomalies.

Everything it draws at random while handling one message is a `Draws`: the values come with the
bounds the draws guarantee, and nothing else is assumed of them, so a statement about every list
of `Draws` is a statement about every seed.  `random()` is compared with the configured
probabilities and is kept as the number drawn; `randint` is a natural number reduced into its
range, which reaches every value of the range.

A run is given the batches its reads return, each message with its draws.  `run` on a list of
batches is the state once the loop has consumed them, or has stopped before: the prefixes of a
longer run are runs themselves.  Neither the store nor the stream fails.
-/

set_option autoImplicit false

namespace PostTrade

/-- The settings of a `TradeBookSimulator`, with the defaults of its constructor. -/
structure SimulatorConfig where
  tradeProbability : ℚ := 1 / 4
  anomalyRate : ℚ := 3 / 20

/-- What the simulator draws while it handles one message. -/
structure Draws where
  /-- `rng.random()`, against `trade_probability`. -/
  tradeRoll : ℚ
  /-- `round(rng.uniform(0.001, 0.05), 6)`. -/
  quantity : ℚ
  quantity_bounds : 1 / 1000 ≤ quantity ∧ quantity ≤ 1 / 20
  /-- `uuid.uuid4()`. -/
  fillId : Str
  /-- `rng.random()`, against `anomaly_rate`. -/
  anomalyRoll : ℚ
  /-- `rng.choice(ANOMALY_TYPES)`. -/
  anomalyChoice : AnomalyType
  /-- `rng.choice([-15, 15])`. -/
  shift : ℤ
  shift_eq : shift = -15 ∨ shift = 15
  /-- `round(rng.uniform(0.01, 0.1), 6)`. -/
  driftSize : ℚ
  driftSize_bounds : 1 / 100 ≤ driftSize ∧ driftSize ≤ 1 / 10
  /-- `rng.choice([Decimal(1), Decimal(-1)])`. -/
  driftSign : ℚ
  driftSign_eq : driftSign = 1 ∨ driftSign = -1
  /-- Reduced into `rng.randint(0, len(seqs) - 4)`. -/
  startPick : ℕ
  /-- `rng.randint(1, 3)`. -/
  gapLength : ℕ
  gapLength_bounds : 1 ≤ gapLength ∧ gapLength ≤ 3

/-- The drift planted in a recorded position. -/
def Draws.drift (d : Draws) : ℚ := d.driftSize * d.driftSign

/-- The anomaly the fill is to carry, if any. -/
def Draws.anomalyType (d : Draws) (config : SimulatorConfig) : Option AnomalyType :=
  if d.anomalyRoll < config.anomalyRate then some d.anomalyChoice else none

/-- The state of a `TradeBookSimulator`, with the stores it writes to. -/
structure Simulator where
  tickStore : TickStore
  bookStore : BookStore
  truePosition : Str → Option ℚ := fun _ ↦ none
  avgPrice : Str → Option ℚ := fun _ ↦ none
  lastPrice : Str → Option ℚ := fun _ ↦ none
  recentSequences : Str → List ℤ := fun _ ↦ []
  /-- The next value of each symbol's `itertools.count(1)`. -/
  fillSequences : Str → ℤ := fun _ ↦ 1
  /-- The next value of `_order_ids`. -/
  orderIds : ℕ := 1
  fillsEmitted : ℕ := 0
  anomaliesPlanted : AnomalyType → ℕ := fun _ ↦ 0

namespace Simulator

/-- `_track_sequence`: the last fifty sequences of the symbol. -/
def trackSequence (tick : Tick) (s : Simulator) : Simulator :=
  let seqs := s.recentSequences tick.symbol ++ [tick.sequence]
  { s with
    recentSequences := Function.update s.recentSequences tick.symbol
      (seqs.drop (seqs.length - 50)) }

/-- `_apply_fill`. -/
def applyFill (fill : Fill) (s : Simulator) : Simulator :=
  { s with
    truePosition := Function.update s.truePosition fill.symbol
      (some ((s.truePosition fill.symbol).getD 0 + fill.signedQty))
    avgPrice := Function.update s.avgPrice fill.symbol (some fill.price) }

/-- The position `_write_position` records: the true one, unless it is overridden. -/
def snapshot (symbol : Str) (timestamp : Time) (fillId : Str) (quantityOverride : Option ℚ)
    (s : Simulator) : Position where
  symbol := symbol
  quantity := quantityOverride.getD ((s.truePosition symbol).getD 0)
  avgPrice := (s.avgPrice symbol).getD 0
  lastUpdated := timestamp
  lastFillId := some fillId

/-- `_write_position`. -/
def writePosition (symbol : Str) (timestamp : Time) (fillId : Str)
    (quantityOverride : Option ℚ) (s : Simulator) : Simulator :=
  { s with
    bookStore := s.bookStore.writePosition
      (s.snapshot symbol timestamp fillId quantityOverride) }

/-- `book_store.log_planted_anomaly(…)` and the count that goes with it. -/
def logPlanted (anomaly : PlantedAnomaly) (s : Simulator) : Simulator :=
  { s with
    bookStore := s.bookStore.logPlantedAnomaly anomaly
    anomaliesPlanted := Function.update s.anomaliesPlanted anomaly.anomalyType
      (s.anomaliesPlanted anomaly.anomalyType + 1) }

/-- The slice of tracked sequences a sequence gap deletes. -/
def gapSeqs (draws : Draws) (seqs : List ℤ) : List ℤ :=
  (seqs.drop (draws.startPick % (seqs.length - 3))).take draws.gapLength

/-- `_plant_sequence_gap`. -/
def plantSequenceGap (draws : Draws) (symbol : Str) (plantedAt : Time) (s : Simulator) :
    Simulator :=
  let seqs := Frame.sortBy id (s.recentSequences symbol)
  if seqs.length < 6 then s
  else
    let (tickStore, deleted) := s.tickStore.deleteSequences symbol (gapSeqs draws seqs)
    let s := { s with tickStore }
    if deleted = [] then s
    else
      s.logPlanted
        { anomalyType := .sequenceGap
          symbol
          plantedAt
          detail := [.text "deleted stored ticks with sequences ", .ints deleted, .text " for ",
            .str symbol]
          relatedSequenceStart := deleted.min?
          relatedSequenceEnd := deleted.max? }

/-- The fill a tick is answered with. -/
def newFill (config : SimulatorConfig) (draws : Draws) (tick : Tick) (s : Simulator) : Fill where
  fillId := draws.fillId
  orderId := "sim-order-".toList ++ (Nat.repr s.orderIds).toList
  symbol := tick.symbol
  sequence := s.fillSequences tick.symbol
  price := tick.price
  quantity := draws.quantity
  side := if tick.price ≥ (s.lastPrice tick.symbol).getD tick.price then .buy else .sell
  timestamp :=
    if draws.anomalyType config = some .unmatchedFill then
      tick.exchangeTimestamp + minutes draws.shift
    else tick.exchangeTimestamp
  isPlantedAnomaly := (draws.anomalyType config).isSome
  anomalyType := draws.anomalyType config

/-- Writing the new fill: the counters move on, the fill is stored and applied. -/
def bookFill (config : SimulatorConfig) (draws : Draws) (tick : Tick) (s : Simulator) :
    Simulator :=
  let fill := s.newFill config draws tick
  let s := { s with
    lastPrice := Function.update s.lastPrice tick.symbol (some tick.price)
    orderIds := s.orderIds + 1
    fillSequences := Function.update s.fillSequences tick.symbol
      (s.fillSequences tick.symbol + 1)
    bookStore := s.bookStore.writeFill fill }
  let s := s.applyFill fill
  { s with fillsEmitted := s.fillsEmitted + 1 }

/-- The row logged for an unmatched fill. -/
def unmatchedAnomaly (draws : Draws) (tick : Tick) : PlantedAnomaly where
  anomalyType := .unmatchedFill
  symbol := tick.symbol
  plantedAt := tick.exchangeTimestamp
  detail := [.text "fill ", .str draws.fillId, .text " timestamped ",
    .time (tick.exchangeTimestamp + minutes draws.shift),
    .text ", far from any observed tick (nearest real tick at ", .time tick.exchangeTimestamp,
    .text ")"]
  relatedFillId := some draws.fillId

/-- The row logged for a position drift. -/
def driftAnomaly (draws : Draws) (tick : Tick) (trueQty : ℚ) : PlantedAnomaly where
  anomalyType := .positionDrift
  symbol := tick.symbol
  plantedAt := tick.exchangeTimestamp
  detail := [.text "recorded position drifted by ", .decimal draws.drift, .text " after fill ",
    .str draws.fillId, .text "; true=", .decimal trueQty, .text " recorded=",
    .decimal (trueQty + draws.drift)]
  relatedFillId := some draws.fillId

/-- What follows the fill: the anomaly it is to carry is logged, and a position is recorded.  An
unmatched fill records none. -/
def settleFill (config : SimulatorConfig) (draws : Draws) (tick : Tick) (s : Simulator) :
    Simulator :=
  match draws.anomalyType config with
  | some .unmatchedFill => s.logPlanted (unmatchedAnomaly draws tick)
  | some .positionDrift =>
    let trueQty := (s.truePosition tick.symbol).getD 0
    (s.logPlanted (driftAnomaly draws tick trueQty)).writePosition tick.symbol
      tick.exchangeTimestamp draws.fillId (some (trueQty + draws.drift))
  | some .sequenceGap =>
    (s.writePosition tick.symbol tick.exchangeTimestamp draws.fillId none).plantSequenceGap
      draws tick.symbol tick.exchangeTimestamp
  | none => s.writePosition tick.symbol tick.exchangeTimestamp draws.fillId none

/-- `_generate_fill`. -/
def generateFill (config : SimulatorConfig) (draws : Draws) (tick : Tick) (s : Simulator) :
    Simulator :=
  (s.bookFill config draws tick).settleFill config draws tick

/-! ## Runs -/

/-- The body of `run` over the messages of one read; `true` when `max_fills` ended the run. -/
def runBatch (config : SimulatorConfig) (maxFills : Option ℤ) :
    List (Tick × Draws) → Simulator → Simulator × Bool
  | [], s => (s, false)
  | (tick, draws) :: rest, s =>
    let s := s.trackSequence tick
    if draws.tradeRoll < config.tradeProbability then
      let s := s.generateFill config draws tick
      if maxFills.any fun m ↦ decide (m ≤ (s.fillsEmitted : ℤ)) then (s, true)
      else runBatch config maxFills rest s
    else runBatch config maxFills rest s

/-- `run`, over the batches its reads return, with the number of idle reads so far. -/
def runFrom (config : SimulatorConfig) (maxFills maxIdleReads : Option ℤ) :
    ℤ → List (List (Tick × Draws)) → Simulator → Simulator
  | _, [], s => s
  | idle, [] :: reads, s =>
    if maxIdleReads.any fun m ↦ decide (m ≤ idle + 1) then s
    else runFrom config maxFills maxIdleReads (idle + 1) reads s
  | _, (msg :: batch) :: reads, s =>
    match runBatch config maxFills (msg :: batch) s with
    | (s, true) => s
    | (s, false) => runFrom config maxFills maxIdleReads 0 reads s

/-- `run`. -/
def run (config : SimulatorConfig) (maxFills maxIdleReads : Option ℤ)
    (reads : List (List (Tick × Draws))) (s : Simulator) : Simulator :=
  runFrom config maxFills maxIdleReads 0 reads s

/-! ## What one fill does -/

section Step

variable (config : SimulatorConfig) (draws : Draws) (tick : Tick) (s : Simulator)

@[simp] theorem newFill_fillId : (s.newFill config draws tick).fillId = draws.fillId := rfl

@[simp] theorem newFill_symbol : (s.newFill config draws tick).symbol = tick.symbol := rfl

@[simp] theorem newFill_sequence :
    (s.newFill config draws tick).sequence = s.fillSequences tick.symbol := rfl

/-- Planting a gap touches no fill and no position, and logs only its own type. -/
theorem plantSequenceGap_frame (symbol : Str) (plantedAt : Time) :
    let s' := s.plantSequenceGap draws symbol plantedAt
    s'.bookStore.fills = s.bookStore.fills ∧ s'.bookStore.positions = s.bookStore.positions ∧
      s'.truePosition = s.truePosition ∧ s'.fillSequences = s.fillSequences ∧
      (s'.bookStore.plantedAnomalies = s.bookStore.plantedAnomalies ∨
        ∃ a, a.anomalyType = .sequenceGap ∧
          s'.bookStore.plantedAnomalies = s.bookStore.plantedAnomalies ++ [a]) := by
  intro s'
  simp only [s', plantSequenceGap]
  split
  · exact ⟨rfl, rfl, rfl, rfl, .inl rfl⟩
  · split
    · exact ⟨rfl, rfl, rfl, rfl, .inl rfl⟩
    · exact ⟨rfl, rfl, rfl, rfl, .inr ⟨_, rfl, rfl⟩⟩

variable {s}

theorem bookFill_bookStore (hfresh : draws.fillId ∉ s.bookStore.fills.map Fill.fillId) :
    (s.bookFill config draws tick).bookStore
      = { s.bookStore with fills := s.bookStore.fills ++ [s.newFill config draws tick] } := by
  simp only [bookFill, applyFill, BookStore.writeFill]
  rw [if_neg (by exact hfresh)]

variable (s) in
/-- Writing a fill logs nothing. -/
theorem bookFill_plantedAnomalies :
    (s.bookFill config draws tick).bookStore.plantedAnomalies
      = s.bookStore.plantedAnomalies := by
  simp only [bookFill, applyFill, BookStore.writeFill]
  split
  · rfl
  · rfl

/-- The position the simulator holds after the new fill. -/
def nextTrue (config : SimulatorConfig) (draws : Draws) (tick : Tick) (s : Simulator) : ℚ :=
  (s.truePosition tick.symbol).getD 0 + (s.newFill config draws tick).signedQty

/-- **Everything one fill can do to the book.**  It stores the fill; and it either records no
position and logs an unmatched fill, or records the true position displaced by a drift it logs,
or records the true position and logs at most a sequence gap. -/
theorem generateFill_cases (hfresh : draws.fillId ∉ s.bookStore.fills.map Fill.fillId) :
    let s' := s.generateFill config draws tick
    let true' := s.nextTrue config draws tick
    s'.bookStore.fills = s.bookStore.fills ++ [s.newFill config draws tick] ∧
      s'.truePosition = Function.update s.truePosition tick.symbol (some true') ∧
      s'.fillSequences
        = Function.update s.fillSequences tick.symbol (s.fillSequences tick.symbol + 1) ∧
      ((s'.bookStore.positions = s.bookStore.positions ∧
          s'.bookStore.plantedAnomalies
            = s.bookStore.plantedAnomalies ++ [unmatchedAnomaly draws tick]) ∨
        ∃ pos : Position, pos.symbol = tick.symbol ∧ pos.lastFillId = some draws.fillId ∧
          s'.bookStore.positions = s.bookStore.positions ++ [pos] ∧
          ((pos.quantity = true' + draws.drift ∧
              s'.bookStore.plantedAnomalies
                = s.bookStore.plantedAnomalies ++ [driftAnomaly draws tick true']) ∨
            (pos.quantity = true' ∧
              (s'.bookStore.plantedAnomalies = s.bookStore.plantedAnomalies ∨
                ∃ a, a.anomalyType = .sequenceGap ∧
                  s'.bookStore.plantedAnomalies = s.bookStore.plantedAnomalies ++ [a])))) := by
  intro s' true'
  have hbook := bookFill_bookStore config draws tick hfresh
  have htrue : (s.bookFill config draws tick).truePosition
      = Function.update s.truePosition tick.symbol (some true') := rfl
  have hseqs : (s.bookFill config draws tick).fillSequences
      = Function.update s.fillSequences tick.symbol (s.fillSequences tick.symbol + 1) := rfl
  have hqty : ((s.bookFill config draws tick).truePosition tick.symbol).getD 0 = true' := by
    rw [htrue, Function.update_self, Option.getD_some]
  set booked := s.bookFill config draws tick with hbooked
  simp only [s', generateFill, settleFill, ← hbooked]
  split
  · refine ⟨?_, htrue, hseqs, .inl ⟨?_, ?_⟩⟩
    · simp [logPlanted, BookStore.logPlantedAnomaly, hbook]
    · simp [logPlanted, BookStore.logPlantedAnomaly, hbook]
    · simp [logPlanted, BookStore.logPlantedAnomaly, hbook]
  · refine ⟨?_, htrue, hseqs, .inr ⟨booked.snapshot tick.symbol tick.exchangeTimestamp
      draws.fillId (some (true' + draws.drift)), rfl, rfl, ?_, .inl ⟨rfl, ?_⟩⟩⟩
    · simp [writePosition, logPlanted, BookStore.writePosition, BookStore.logPlantedAnomaly, hbook]
    · simp [writePosition, logPlanted, BookStore.writePosition, BookStore.logPlantedAnomaly, hbook,
        hqty, snapshot]
    · simp [writePosition, logPlanted, BookStore.writePosition, BookStore.logPlantedAnomaly, hbook,
        hqty]
  · obtain ⟨hfills, hpos, htrue', hseqs', hlog⟩ := plantSequenceGap_frame draws
      (booked.writePosition tick.symbol tick.exchangeTimestamp draws.fillId none) tick.symbol
      tick.exchangeTimestamp
    refine ⟨?_, htrue'.trans htrue, hseqs'.trans hseqs,
      .inr ⟨booked.snapshot tick.symbol tick.exchangeTimestamp draws.fillId none, rfl, rfl,
        hpos.trans ?_, .inr ⟨hqty, ?_⟩⟩⟩
    · rw [hfills]
      simp [writePosition, BookStore.writePosition, hbook]
    · simp [writePosition, BookStore.writePosition, hbook]
    · simpa [writePosition, BookStore.writePosition, hbook] using hlog
  · refine ⟨?_, htrue, hseqs,
      .inr ⟨booked.snapshot tick.symbol tick.exchangeTimestamp draws.fillId none, rfl, rfl, ?_,
        .inr ⟨hqty, .inl ?_⟩⟩⟩
    · simp [writePosition, BookStore.writePosition, hbook]
    · simp [writePosition, BookStore.writePosition, hbook]
    · simp [writePosition, BookStore.writePosition, hbook]

end Step

/-! ## A run as a list of events

However its reads fall and wherever it stops, a run tracks the ticks of a prefix of its messages
and answers some of them with a fill.  So what an event preserves, a run preserves. -/

/-- What the loop does with a message: it tracks the tick, and it may then answer it. -/
inductive Event
  | seen (tick : Tick)
  | filled (tick : Tick) (draws : Draws)

def Event.apply (config : SimulatorConfig) (s : Simulator) : Event → Simulator
  | .seen tick => s.trackSequence tick
  | .filled tick draws => s.generateFill config draws tick

/-- The ticks tracked, in order. -/
def seenTicks (events : List Event) : List Tick :=
  events.filterMap fun
    | .seen tick => some tick
    | .filled _ _ => none

/-- The fill ids drawn, in order. -/
def filledIds (events : List Event) : List Str :=
  events.filterMap fun
    | .seen _ => none
    | .filled _ draws => some draws.fillId

/-- The ticks answered with a fill, with their draws, in order. -/
def trades (events : List Event) : List (Tick × Draws) :=
  events.filterMap fun
    | .seen _ => none
    | .filled tick draws => some (tick, draws)

@[simp] theorem trades_nil : trades [] = [] := rfl
@[simp] theorem trades_seen (tick : Tick) (events : List Event) :
    trades (.seen tick :: events) = trades events := rfl
@[simp] theorem trades_filled (tick : Tick) (draws : Draws) (events : List Event) :
    trades (.filled tick draws :: events) = (tick, draws) :: trades events := rfl

@[simp] theorem seenTicks_nil : seenTicks [] = [] := rfl
@[simp] theorem seenTicks_seen (tick : Tick) (events : List Event) :
    seenTicks (.seen tick :: events) = tick :: seenTicks events := rfl
@[simp] theorem seenTicks_filled (tick : Tick) (draws : Draws) (events : List Event) :
    seenTicks (.filled tick draws :: events) = seenTicks events := rfl
@[simp] theorem seenTicks_append (events more : List Event) :
    seenTicks (events ++ more) = seenTicks events ++ seenTicks more := List.filterMap_append

@[simp] theorem filledIds_nil : filledIds [] = [] := rfl
@[simp] theorem filledIds_seen (tick : Tick) (events : List Event) :
    filledIds (.seen tick :: events) = filledIds events := rfl
@[simp] theorem filledIds_filled (tick : Tick) (draws : Draws) (events : List Event) :
    filledIds (.filled tick draws :: events) = draws.fillId :: filledIds events := rfl
@[simp] theorem filledIds_append (events more : List Event) :
    filledIds (events ++ more) = filledIds events ++ filledIds more := List.filterMap_append

theorem map_trades (events : List Event) :
    (trades events).map (fun t ↦ t.2.fillId) = filledIds events := by
  rw [trades, List.map_filterMap]
  refine List.filterMap_congr fun event _ ↦ ?_
  cases event with
  | seen tick => rfl
  | filled tick draws => rfl

/-- The events are those of a run over the messages. -/
structure EventsOf (msgs : List (Tick × Draws)) (events : List Event) : Prop where
  seen : seenTicks events <+: msgs.map Prod.fst
  filled : (filledIds events).Sublist (msgs.map fun m ↦ m.2.fillId)

theorem EventsOf.nil (msgs : List (Tick × Draws)) : EventsOf msgs [] :=
  ⟨List.nil_prefix, List.nil_sublist _⟩

section Runs

variable (config : SimulatorConfig) (maxFills maxIdleReads : Option ℤ)

/-- The events of one batch after `emitted` fills; `true` when `max_fills` ends the run in it. -/
def batchEvents : ℕ → List (Tick × Draws) → List Event × Bool
  | _, [] => ([], false)
  | emitted, (tick, draws) :: rest =>
    if draws.tradeRoll < config.tradeProbability then
      if maxFills.any fun m ↦ decide (m ≤ ((emitted + 1 : ℕ) : ℤ)) then
        ([.seen tick, .filled tick draws], true)
      else
        let (events, stopped) := batchEvents (emitted + 1) rest
        (.seen tick :: .filled tick draws :: events, stopped)
    else
      let (events, stopped) := batchEvents emitted rest
      (.seen tick :: events, stopped)

/-- The events of a run from a state in which `emitted` fills are written, in order. -/
def eventsFrom : ℕ → ℤ → List (List (Tick × Draws)) → List Event
  | _, _, [] => []
  | emitted, idle, [] :: reads =>
    if maxIdleReads.any fun m ↦ decide (m ≤ idle + 1) then []
    else eventsFrom emitted (idle + 1) reads
  | emitted, _, (msg :: batch) :: reads =>
    match batchEvents config maxFills emitted (msg :: batch) with
    | (events, true) => events
    | (events, false) => events ++ eventsFrom (emitted + (filledIds events).length) 0 reads

/-- The events of a new simulator's run: whatever the stores hold, they are the same. -/
def eventsOf (reads : List (List (Tick × Draws))) : List Event :=
  eventsFrom config maxFills maxIdleReads 0 0 reads

/-- Every fill is counted. -/
theorem fillsEmitted_generateFill (draws : Draws) (tick : Tick) (s : Simulator) :
    (s.generateFill config draws tick).fillsEmitted = s.fillsEmitted + 1 := by
  rw [generateFill, settleFill]
  split
  · rfl
  · rfl
  · rw [plantSequenceGap]
    split
    · rfl
    · dsimp only
      split
      · rfl
      · rfl
  · rfl

theorem fillsEmitted_foldl (events : List Event) (s : Simulator) :
    (events.foldl (Event.apply config) s).fillsEmitted
      = s.fillsEmitted + (filledIds events).length := by
  induction events generalizing s with
  | nil => rfl
  | cons event rest ih =>
    rw [List.foldl_cons, ih]
    cases event with
    | seen tick => rfl
    | filled tick draws =>
      rw [Event.apply, fillsEmitted_generateFill, filledIds_filled, List.length_cons]
      omega

theorem runBatch_eq (msgs : List (Tick × Draws)) (s : Simulator) :
    runBatch config maxFills msgs s =
      ((batchEvents config maxFills s.fillsEmitted msgs).1.foldl (Event.apply config) s,
        (batchEvents config maxFills s.fillsEmitted msgs).2) := by
  induction msgs generalizing s with
  | nil => rfl
  | cons msg rest ih =>
    obtain ⟨tick, draws⟩ := msg
    have hemitted : ((s.trackSequence tick).generateFill config draws tick).fillsEmitted
        = s.fillsEmitted + 1 := fillsEmitted_generateFill config draws tick (s.trackSequence tick)
    rw [runBatch, batchEvents]
    dsimp only
    split
    · rw [hemitted]
      split
      · rfl
      · rw [ih, hemitted]
        rfl
    · exact ih (s.trackSequence tick)

theorem runFrom_eq (idle : ℤ) (reads : List (List (Tick × Draws))) (s : Simulator) :
    runFrom config maxFills maxIdleReads idle reads s =
      (eventsFrom config maxFills maxIdleReads s.fillsEmitted idle reads).foldl
        (Event.apply config) s := by
  induction reads generalizing idle s with
  | nil => rfl
  | cons batch reads ih =>
    cases batch with
    | nil =>
      rw [runFrom, eventsFrom]
      split
      · rfl
      · exact ih (idle + 1) s
    | cons msg batch =>
      rw [runFrom, eventsFrom, runBatch_eq]
      rcases batchEvents config maxFills s.fillsEmitted (msg :: batch) with ⟨events, stopped⟩
      cases stopped with
      | true => rfl
      | false =>
        dsimp only
        rw [ih, List.foldl_append, fillsEmitted_foldl]

/-- **A run is the fold of its events.** -/
theorem run_eq (reads : List (List (Tick × Draws))) (tickStore : TickStore)
    (bookStore : BookStore) :
    run config maxFills maxIdleReads reads { tickStore, bookStore } =
      (eventsOf config maxFills maxIdleReads reads).foldl (Event.apply config)
        { tickStore, bookStore } :=
  runFrom_eq config maxFills maxIdleReads 0 reads _

/-- A batch that does not end the run tracks all of its ticks. -/
theorem batchEvents_spec (emitted : ℕ) (msgs : List (Tick × Draws)) :
    EventsOf msgs (batchEvents config maxFills emitted msgs).1 ∧
      ((batchEvents config maxFills emitted msgs).2 = false →
        seenTicks (batchEvents config maxFills emitted msgs).1 = msgs.map Prod.fst) := by
  induction msgs generalizing emitted with
  | nil => exact ⟨.nil _, fun _ ↦ rfl⟩
  | cons msg rest ih =>
    obtain ⟨tick, draws⟩ := msg
    rw [batchEvents]
    split
    · split
      · refine ⟨⟨?_, ?_⟩, by simp⟩
        · simp [List.prefix_iff_eq_append]
        · simp
      · obtain ⟨⟨hseen, hfilled⟩, hall⟩ := ih (emitted + 1)
        refine ⟨⟨?_, ?_⟩, fun h ↦ ?_⟩
        · simpa using hseen
        · simpa using hfilled
        · simpa using hall h
    · obtain ⟨⟨hseen, hfilled⟩, hall⟩ := ih emitted
      refine ⟨⟨?_, ?_⟩, fun h ↦ ?_⟩
      · simpa using hseen
      · exact hfilled.cons draws.fillId
      · simpa using hall h

theorem eventsFrom_spec (emitted : ℕ) (idle : ℤ) (reads : List (List (Tick × Draws))) :
    EventsOf reads.flatten (eventsFrom config maxFills maxIdleReads emitted idle reads) := by
  induction reads generalizing emitted idle with
  | nil => exact .nil _
  | cons batch reads ih =>
    cases batch with
    | nil =>
      rw [eventsFrom]
      split
      · exact .nil _
      · simpa using ih emitted (idle + 1)
    | cons msg batch =>
      obtain ⟨hof, hall⟩ := batchEvents_spec config maxFills emitted (msg :: batch)
      rw [eventsFrom]
      rcases hbatch : batchEvents config maxFills emitted (msg :: batch) with ⟨events, stopped⟩
      rw [hbatch] at hof hall
      cases stopped with
      | true =>
        refine ⟨?_, ?_⟩
        · rw [List.flatten_cons, List.map_append]
          exact hof.seen.trans (List.prefix_append _ _)
        · rw [List.flatten_cons, List.map_append]
          exact hof.filled.trans (List.sublist_append_left _ _)
      | false =>
        have hmore := ih (emitted + (filledIds events).length) 0
        refine ⟨?_, ?_⟩
        · rw [seenTicks_append, hall rfl, List.flatten_cons, List.map_append]
          exact (List.prefix_append_right_inj _).mpr hmore.seen
        · rw [filledIds_append, List.flatten_cons, List.map_append]
          exact hof.filled.append hmore.filled

/-- The events of a run are over its messages. -/
theorem eventsOf_spec (reads : List (List (Tick × Draws))) :
    EventsOf reads.flatten (eventsOf config maxFills maxIdleReads reads) :=
  eventsFrom_spec config maxFills maxIdleReads 0 0 reads

variable {config}

/-- Ids that are distinct from the one drawn stay fresh. -/
theorem fresh_generateFill {tick : Tick} {draws : Draws} {s : Simulator} {ids : List Str}
    (hnd : (draws.fillId :: ids).Nodup)
    (hfresh : ∀ id ∈ draws.fillId :: ids, id ∉ s.bookStore.fills.map Fill.fillId) :
    ∀ id ∈ ids, id ∉ (s.generateFill config draws tick).bookStore.fills.map Fill.fillId := by
  intro id hid hmem
  rw [(generateFill_cases config draws tick (hfresh draws.fillId List.mem_cons_self)).1,
    List.map_append] at hmem
  rcases List.mem_append.mp hmem with h | h
  · exact hfresh id (List.mem_cons_of_mem _ hid) h
  · rw [show id = draws.fillId from List.mem_singleton.mp h] at hid
    exact (List.nodup_cons.mp hnd).1 hid

/-- What every event preserves holds after any events that draw distinct, fresh fill ids. -/
theorem foldl_invariant {P : Simulator → Prop}
    (hseen : ∀ s tick, P s → P (s.trackSequence tick))
    (hfilled : ∀ s tick draws, P s → draws.fillId ∉ s.bookStore.fills.map Fill.fillId →
      P (s.generateFill config draws tick))
    (events : List Event) (s : Simulator) (hs : P s) (hnd : (filledIds events).Nodup)
    (hfresh : ∀ id ∈ filledIds events, id ∉ s.bookStore.fills.map Fill.fillId) :
    P (events.foldl (Event.apply config) s) := by
  induction events generalizing s with
  | nil => exact hs
  | cons event rest ih =>
    cases event with
    | seen tick => exact ih (s.trackSequence tick) (hseen s tick hs) hnd hfresh
    | filled tick draws =>
      rw [filledIds_filled] at hnd hfresh
      exact ih _ (hfilled s tick draws hs (hfresh draws.fillId List.mem_cons_self))
        (List.nodup_cons.mp hnd).2 (fresh_generateFill hnd hfresh)

end Runs

end Simulator

end PostTrade
