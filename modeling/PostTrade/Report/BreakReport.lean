import PostTrade.Reconcile.Reconciler

/-!
# The break report

`generate_break_report` of `report/report.py`: it reconciles a list of symbols over a window around
the present and scores the breaks against the log of planted anomalies.  The report is kept as the
values its markdown is filled with.  A rate with nothing to divide by is printed `nan`, and is
`none` here.

The breaks come from reads that take a symbol and a window, the planted anomalies from a read that
takes neither.  So adding anomalies from outside the symbols or the window leaves the breaks as they
are (`reconcileAll_add`), while the scores stay only under the condition of `scores_unchanged_iff`:
the added anomalies must name no fill the log did not name.
-/

set_option autoImplicit false

namespace PostTrade

/-- `timedelta(hours=h)`. -/
def hours (h : ℤ) : ℤ := 60 * minutes h

/-- The break type of the same name. -/
def AnomalyType.breakType : AnomalyType → BreakType
  | .unmatchedFill => .unmatchedFill
  | .positionDrift => .positionDrift
  | .sequenceGap => .sequenceGap

/-- `read_planted_anomalies_df`. -/
def BookStore.readPlantedAnomaliesDf (book : BookStore) : List PlantedAnomaly :=
  Frame.sortBy PlantedAnomaly.plantedAt book.plantedAnomalies

namespace Report

/-- A row of the precision and recall table. -/
structure Score where
  anomalyType : AnomalyType
  planted : ℕ
  found : ℕ
  precisionRate : Option ℚ
  recallRate : Option ℚ
  deriving DecidableEq

/-- The table of scores, with the row for sequence gaps. -/
structure Scores where
  rows : List Score
  plantedGapEvents : ℕ
  foundGapEvents : ℕ
  deriving DecidableEq

/-- What the markdown of a break report shows. -/
structure BreakReport where
  generated : Time
  symbols : List Str
  total : ℕ
  /-- The table lists the types that occur. -/
  counts : BreakType → ℕ
  /-- The section on precision and recall, if there is one. -/
  scores : Option Scores
  /-- The first fifteen in the order of `detected_at`. -/
  samples : List Break

/-- `set(… ["related_fill_id"].dropna())` over the planted anomalies of one type. -/
def plantedIds (groundTruth : List PlantedAnomaly) (anomalyType : AnomalyType) : Finset Str :=
  ((groundTruth.filter fun a ↦ a.anomalyType = anomalyType).filterMap
    PlantedAnomaly.relatedFillId).toFinset

/-- `set(… ["related_fill_id"].dropna())` over the breaks of one type. -/
def foundIds (breaks : List Break) (breakType : BreakType) : Finset Str :=
  ((breaks.filter fun b ↦ b.breakType = breakType).filterMap Break.relatedFillId).toFinset

/-- A rate, or `nan` where there is nothing to divide by. -/
def rate (hits misses : ℕ) : Option ℚ :=
  if hits + misses > 0 then some (hits / (hits + misses)) else none

/-- The row of one anomaly type. -/
def score (groundTruth : List PlantedAnomaly) (breaks : List Break) (anomalyType : AnomalyType) :
    Score :=
  let plantedIds := plantedIds groundTruth anomalyType
  let foundIds := foundIds breaks anomalyType.breakType
  let tp := (plantedIds ∩ foundIds).card
  let fn := (plantedIds \ foundIds).card
  let fp := (foundIds \ plantedIds).card
  { anomalyType, planted := plantedIds.card, found := tp, precisionRate := rate tp fp
    recallRate := rate tp fn }

/-- The types scored by the fills they name. -/
def scoredTypes : List AnomalyType := [.unmatchedFill, .positionDrift]

/-- The section on precision and recall: none where nothing is planted. -/
def scoresOf (groundTruth : List PlantedAnomaly) (breaks : List Break) : Option Scores :=
  if groundTruth = [] then none
  else
    some
      { rows := scoredTypes.map (score groundTruth breaks)
        plantedGapEvents := groundTruth.countP fun a ↦ a.anomalyType = .sequenceGap
        foundGapEvents := breaks.countP fun b ↦ b.breakType = .sequenceGap }

/-- `generate_break_report`, with the three readings of the clock: for the start, for the end, and
for the title. -/
def generateBreakReport (ticks : TickStore) (book : BookStore) (symbols : List Str)
    (hoursBack minutesForward : ℤ) (clock : Time × Time × Time) : BreakReport :=
  let start := clock.1 - hours hoursBack
  let stop := clock.2.1 + minutes minutesForward
  let breaks := Reconciler.reconcileAll {} ticks book symbols start stop
  { generated := clock.2.2
    symbols
    total := breaks.length
    counts := fun breakType ↦ breaks.countP fun b ↦ b.breakType = breakType
    scores := scoresOf book.readPlantedAnomaliesDf breaks
    samples := (Frame.sortBy Break.detectedAt breaks).take 15 }

/-- The planted count, precision and recall of the types scored by fill; nothing without the
section. -/
def BreakReport.measured (report : BreakReport) : List (ℕ × Option ℚ × Option ℚ) :=
  (report.scores.elim [] Scores.rows).map fun s ↦ (s.planted, s.precisionRate, s.recallRate)

/-! ## Adding rows from outside the scope -/

/-- The book with more rows in its tables. -/
def add (book more : BookStore) : BookStore where
  fills := book.fills ++ more.fills
  positions := book.positions ++ more.positions
  plantedAnomalies := book.plantedAnomalies ++ more.plantedAnomalies

/-- Every row is of a symbol that is not reconciled, or its time is outside what is read. -/
structure OutOfScope (symbols : List Str) (start stop : Time) (w : ℤ) (ticks : TickStore)
    (book : BookStore) : Prop where
  ticks : ∀ t ∈ ticks, t.symbol ∈ symbols → ¬ (start - w ≤ t.time ∧ t.time ≤ stop + w)
  fills : ∀ f ∈ book.fills, f.symbol ∈ symbols →
    ¬ (start - w ≤ f.timestamp ∧ f.timestamp ≤ stop + w)
  positions : ∀ p ∈ book.positions, p.symbol ∈ symbols →
    ¬ (start ≤ p.lastUpdated ∧ p.lastUpdated ≤ stop)
  anomalies : ∀ a ∈ book.plantedAnomalies, a.symbol ∈ symbols →
    ¬ (start ≤ a.plantedAt ∧ a.plantedAt ≤ stop)

section Add

variable {r : Reconciler} {symbols : List Str} {start stop : Time} {ticks moreTicks : TickStore}
  {book more : BookStore}

/-- Rows a read leaves out may be added to the table. -/
theorem filter_append_of_out {α : Type*} {p : α → Bool} {rows more : List α}
    (h : ∀ x ∈ more, ¬ p x = true) : (rows ++ more).filter p = rows.filter p := by
  rw [List.filter_append, List.filter_eq_nil_iff.mpr h, List.append_nil]

/-- Rows from outside the scope are not seen by the reconciler. -/
theorem reconcileAll_add
    (hout : OutOfScope symbols start stop r.tickMatchWindow moreTicks more) :
    r.reconcileAll (ticks ++ moreTicks) (add book more) symbols start stop =
      r.reconcileAll ticks book symbols start stop := by
  refine List.flatMap_congr fun symbol hsymbol ↦ ?_
  have hticks : TickStore.readTicksDf (ticks ++ moreTicks) symbol (start - r.tickMatchWindow)
      (stop + r.tickMatchWindow) = ticks.readTicksDf symbol (start - r.tickMatchWindow)
        (stop + r.tickMatchWindow) := by
    refine congrArg _ (filter_append_of_out fun t ht hread ↦ ?_)
    obtain ⟨rfl, htime⟩ := of_decide_eq_true hread
    exact hout.ticks t ht hsymbol htime
  have hfills : (add book more).readFillsDf symbol (start - r.tickMatchWindow)
      (stop + r.tickMatchWindow) = book.readFillsDf symbol (start - r.tickMatchWindow)
        (stop + r.tickMatchWindow) := by
    refine congrArg _ (filter_append_of_out fun f hf hread ↦ ?_)
    obtain ⟨rfl, htime⟩ := of_decide_eq_true hread
    exact hout.fills f hf hsymbol htime
  have hpositions : (add book more).readPositionsDf symbol start stop
      = book.readPositionsDf symbol start stop := by
    refine congrArg _ (filter_append_of_out fun p hp hread ↦ ?_)
    obtain ⟨rfl, htime⟩ := of_decide_eq_true hread
    exact hout.positions p hp hsymbol htime
  rw [Reconciler.reconcileSymbol, hticks, hfills, hpositions, Reconciler.reconcileSymbol]

/-! ## When the scores stay -/

/-- The log names a fill under an anomaly type. -/
def Names (log : List PlantedAnomaly) (anomalyType : AnomalyType) (id : Str) : Prop :=
  ∃ a ∈ log, a.anomalyType = anomalyType ∧ a.relatedFillId = some id

instance (log : List PlantedAnomaly) (anomalyType : AnomalyType) (id : Str) :
    Decidable (Names log anomalyType id) :=
  inferInstanceAs (Decidable (∃ a ∈ log, _))

theorem mem_plantedIds {book : BookStore} {anomalyType : AnomalyType} {id : Str} :
    id ∈ plantedIds book.readPlantedAnomaliesDf anomalyType ↔
      Names book.plantedAnomalies anomalyType id := by
  simp only [plantedIds, BookStore.readPlantedAnomaliesDf, List.mem_toFinset, List.mem_filterMap,
    List.mem_filter, Frame.mem_sortBy, decide_eq_true_eq, Names, and_assoc]

/-- The added anomalies of the scored types name no fill the log did not name under the type. -/
def NamesNothingNew (log more : List PlantedAnomaly) : Prop :=
  ∀ a ∈ more, a.anomalyType ∈ scoredTypes → ∀ id, a.relatedFillId = some id →
    Names log a.anomalyType id

/-- Adding anomalies can only add fills named; it adds none exactly when their number stays. -/
theorem card_plantedIds_add_iff (anomalyType : AnomalyType) :
    (plantedIds (add book more).readPlantedAnomaliesDf anomalyType).card
        = (plantedIds book.readPlantedAnomaliesDf anomalyType).card ↔
      plantedIds (add book more).readPlantedAnomaliesDf anomalyType
        = plantedIds book.readPlantedAnomaliesDf anomalyType := by
  have hsub : plantedIds book.readPlantedAnomaliesDf anomalyType ⊆
      plantedIds (add book more).readPlantedAnomaliesDf anomalyType := by
    intro id hid
    rw [mem_plantedIds] at hid ⊢
    obtain ⟨a, ha, h⟩ := hid
    exact ⟨a, List.mem_append_left _ ha, h⟩
  constructor
  · intro hcard
    exact (Finset.eq_of_subset_of_card_le hsub hcard.le).symm
  · exact congrArg _

theorem namesNothingNew_iff :
    NamesNothingNew book.plantedAnomalies more.plantedAnomalies ↔
      ∀ anomalyType ∈ scoredTypes, plantedIds (add book more).readPlantedAnomaliesDf anomalyType
        = plantedIds book.readPlantedAnomaliesDf anomalyType := by
  constructor
  · intro h anomalyType htype
    ext id
    rw [mem_plantedIds, mem_plantedIds]
    constructor
    · rintro ⟨a, ha, rfl, hid⟩
      rcases List.mem_append.mp ha with ha | ha
      · exact ⟨a, ha, rfl, hid⟩
      · exact h a ha htype id hid
    · rintro ⟨a, ha, h⟩
      exact ⟨a, List.mem_append_left _ ha, h⟩
  · intro h a ha htype id hid
    rw [← mem_plantedIds, ← h a.anomalyType htype, mem_plantedIds]
    exact ⟨a, List.mem_append_right _ ha, rfl, hid⟩

end Add

/-- What the report measures of a ground truth, with nothing to measure where there is none. -/
theorem measured_eq (ticks : TickStore) (book : BookStore) (symbols : List Str)
    (hoursBack minutesForward : ℤ) (clock : Time × Time × Time) :
    (generateBreakReport ticks book symbols hoursBack minutesForward clock).measured =
      if book.plantedAnomalies = [] then []
      else scoredTypes.map fun anomalyType ↦
        let s := score book.readPlantedAnomaliesDf (Reconciler.reconcileAll {} ticks book symbols
          (clock.1 - hours hoursBack) (clock.2.1 + minutes minutesForward)) anomalyType
        (s.planted, s.precisionRate, s.recallRate) := by
  have hempty : book.readPlantedAnomaliesDf = [] ↔ book.plantedAnomalies = [] := by
    rw [BookStore.readPlantedAnomaliesDf, ← List.length_eq_zero_iff, ← List.length_eq_zero_iff,
      (Frame.sortBy_perm _ _).length_eq]
  rw [BreakReport.measured, generateBreakReport]
  dsimp only
  rw [scoresOf, if_congr hempty rfl rfl]
  split
  · rfl
  · rw [Option.elim_some, List.map_map]
    rfl

/-- **When precision and recall are about the reconciled scope.**  Adding anomalies from outside it,
with their fills, positions and ticks, leaves the planted counts, precisions and recalls unchanged
exactly when the section was or remains absent, or present, and the added anomalies name no fill
the log did not name under their type. -/
theorem scores_unchanged_iff (ticks moreTicks : TickStore) (book more : BookStore)
    (symbols : List Str) (hoursBack minutesForward : ℤ) (clock : Time × Time × Time)
    (hout : OutOfScope symbols (clock.1 - hours hoursBack) (clock.2.1 + minutes minutesForward)
      (seconds 5) moreTicks more) :
    (generateBreakReport (ticks ++ moreTicks) (add book more) symbols hoursBack minutesForward
        clock).measured =
      (generateBreakReport ticks book symbols hoursBack minutesForward clock).measured ↔
    (book.plantedAnomalies = [] → more.plantedAnomalies = []) ∧
      NamesNothingNew book.plantedAnomalies more.plantedAnomalies := by
  have hbreaks : Reconciler.reconcileAll {} (ticks ++ moreTicks) (add book more) symbols
      (clock.1 - hours hoursBack) (clock.2.1 + minutes minutesForward) =
        Reconciler.reconcileAll {} ticks book symbols (clock.1 - hours hoursBack)
          (clock.2.1 + minutes minutesForward) := reconcileAll_add hout
  rw [measured_eq, measured_eq, hbreaks]
  have hadd : (add book more).plantedAnomalies = [] ↔
      book.plantedAnomalies = [] ∧ more.plantedAnomalies = [] := List.append_eq_nil_iff
  by_cases hlog : book.plantedAnomalies = []
  · rw [if_pos hlog]
    by_cases hmore : more.plantedAnomalies = []
    · rw [if_pos (hadd.mpr ⟨hlog, hmore⟩)]
      refine iff_of_true rfl ⟨fun _ ↦ hmore, fun a ha ↦ ?_⟩
      rw [hmore] at ha
      cases ha
    · rw [if_neg fun h ↦ hmore (hadd.mp h).2]
      refine iff_of_false (fun h ↦ ?_) fun h ↦ hmore (h.1 hlog)
      cases h
  · rw [if_neg hlog, if_neg fun h ↦ hlog (hadd.mp h).1, List.map_inj_left, namesNothingNew_iff]
    constructor
    · intro h
      refine ⟨fun hnil ↦ absurd hnil hlog, fun anomalyType htype ↦ ?_⟩
      exact (card_plantedIds_add_iff anomalyType).mp (congrArg Prod.fst (h anomalyType htype))
    · rintro ⟨-, h⟩ anomalyType htype
      rw [score, h anomalyType htype, score]

/-! ### An unmatched fill of another symbol -/

/-- An unmatched fill. -/
def unmatchedFillOf (symbol fillId : Str) : Fill where
  fillId := fillId
  orderId := "sim-order-1".toList
  symbol := symbol
  sequence := 1
  price := 100
  quantity := 1 / 100
  side := .buy
  timestamp := minutes 15
  isPlantedAnomaly := true
  anomalyType := some .unmatchedFill

/-- A book with one planted fill, of the symbol that is reconciled. -/
def reportBook : BookStore where
  fills := [unmatchedFillOf "BTC-USD".toList "f1".toList]
  plantedAnomalies :=
    [{ anomalyType := .unmatchedFill, symbol := "BTC-USD".toList, plantedAt := 0, detail := []
       relatedFillId := some "f1".toList }]

/-- A planted gap of a symbol that is not reconciled. -/
def otherGap : BookStore where
  plantedAnomalies :=
    [{ anomalyType := .sequenceGap, symbol := "ETH-USD".toList, plantedAt := 0, detail := [] }]

/-- A planted fill of a symbol that is not reconciled, with its fill. -/
def otherUnmatched : BookStore where
  fills := [unmatchedFillOf "ETH-USD".toList "f2".toList]
  plantedAnomalies :=
    [{ anomalyType := .unmatchedFill, symbol := "ETH-USD".toList, plantedAt := 0, detail := []
       relatedFillId := some "f2".toList }]

/-- Only BTC-USD is reconciled. -/
def reportScope : List Str := ["BTC-USD".toList]

theorem scores_unchanged_of_other_gap :
    (generateBreakReport [] (add reportBook otherGap) reportScope 6 30 (0, 0, 0)).measured =
      (generateBreakReport [] reportBook reportScope 6 30 (0, 0, 0)).measured :=
  (scores_unchanged_iff [] [] reportBook otherGap reportScope 6 30 (0, 0, 0)
    ⟨by decide, by decide, by decide, by decide⟩).mpr ⟨by decide, fun a ha htype ↦ by
      rw [List.mem_singleton.mp ha] at htype
      exact absurd htype (by decide)⟩

/-- A planted fill of another symbol counts as planted, and so against the recall. -/
theorem other_unmatched_changes_scores :
    OutOfScope reportScope (0 - hours 6) (0 + minutes 30) (seconds 5) [] otherUnmatched ∧
      (generateBreakReport [] reportBook reportScope 6 30 (0, 0, 0)).measured
        = [(1, some 1, some 1), (0, none, none)] ∧
      (generateBreakReport [] (add reportBook otherUnmatched) reportScope 6 30 (0, 0, 0)).measured
        = [(2, some 1, some (1 / 2)), (0, none, none)] := by
  refine ⟨⟨by decide, by decide, by decide, by decide⟩, ?_, ?_⟩
  · decide +kernel
  · decide +kernel

end Report

end PostTrade
