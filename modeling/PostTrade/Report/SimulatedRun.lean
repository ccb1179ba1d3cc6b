import PostTrade.Report.BreakReport
import PostTrade.Simulate.GroundTruth
import PostTrade.Simulate.UnmatchedFills

/-!
# The report on a run of the simulator

The simulator plants, the reconciler finds, and `generate_break_report` measures one against the
other.  `report_of_run` puts the three together: for one run from an empty book it says what each
cell of the precision and recall table is, in terms of the trades of the run and nothing else.

For position drift the precision is one, and the recall is the share of the drifted fills whose
symbol is reconciled.  For unmatched fills both depend on which trades are left far from every
tick.  The table counts what was planted over all symbols, and what was found over those asked for.
-/

set_option autoImplicit false

namespace PostTrade

/-! ## Counting names -/

section Named

variable {α β : Type*} [DecidableEq β] {name : α → β} {l : List α}
  {p q : α → Prop} [DecidablePred p] [DecidablePred q]

/-- Under distinct names, there are as many names of a kind as elements of it. -/
theorem card_toFinset_named (hnodup : (l.map name).Nodup) :
    ((l.filter fun x ↦ p x).map name).toFinset.card = l.countP fun x ↦ p x := by
  rw [List.toFinset_card_of_nodup (hnodup.sublist (List.filter_sublist.map name)),
    List.length_map, List.countP_eq_length_filter]

theorem mem_toFinset_named_iff (hnodup : (l.map name).Nodup) {x : α} (hx : x ∈ l) :
    name x ∈ ((l.filter fun x ↦ p x).map name).toFinset ↔ p x := by
  rw [List.mem_toFinset, List.mem_map]
  constructor
  · rintro ⟨y, hy, hname⟩
    obtain ⟨hmem, hp⟩ := List.mem_filter.mp hy
    rw [← List.inj_on_of_nodup_map hnodup hmem hx hname]
    exact of_decide_eq_true hp
  · intro hp
    exact ⟨x, List.mem_filter.mpr ⟨hx, decide_eq_true hp⟩, rfl⟩

theorem inter_toFinset_named (hnodup : (l.map name).Nodup) :
    ((l.filter fun x ↦ p x).map name).toFinset ∩ ((l.filter fun x ↦ q x).map name).toFinset
      = ((l.filter fun x ↦ p x ∧ q x).map name).toFinset := by
  ext n
  rw [Finset.mem_inter]
  by_cases hn : ∃ x ∈ l, name x = n
  · obtain ⟨x, hx, rfl⟩ := hn
    rw [mem_toFinset_named_iff hnodup hx, mem_toFinset_named_iff hnodup hx,
      mem_toFinset_named_iff hnodup hx]
  · have hnone : ∀ (r : α → Prop) [DecidablePred r],
        n ∉ ((l.filter fun x ↦ r x).map name).toFinset := by
      intro r _ hmem
      obtain ⟨x, hx, hname⟩ := List.mem_map.mp (List.mem_toFinset.mp hmem)
      exact hn ⟨x, List.mem_of_mem_filter hx, hname⟩
    exact iff_of_false (fun h ↦ hnone p h.1) (hnone _)

end Named

namespace Report

/-- A share of a total, or `nan` where the total is nothing. -/
def ratio (part total : ℕ) : Option ℚ := if 0 < total then some (part / total) else none

theorem rate_eq_ratio (found planted : Finset Str) :
    rate (found ∩ planted).card (found \ planted).card
      = ratio (found ∩ planted).card found.card := by
  have hcard := Finset.card_inter_add_card_sdiff found planted
  rw [rate, ratio, ← Nat.cast_add, hcard]

/-- The row of a type whose planted and reported fills are those of the given trades. -/
theorem score_eq {α : Type*} {trades : List α} {name : α → Str} (hnodup : (trades.map name).Nodup)
    {log : List PlantedAnomaly} {breaks : List Break} {anomalyType : AnomalyType}
    {planted reported : α → Prop} [DecidablePred planted] [DecidablePred reported]
    (hplanted : plantedIds log anomalyType
      = ((trades.filter fun x ↦ planted x).map name).toFinset)
    (hreported : foundIds breaks anomalyType.breakType
      = ((trades.filter fun x ↦ reported x).map name).toFinset) :
    score log breaks anomalyType =
      { anomalyType
        planted := trades.countP fun x ↦ planted x
        found := trades.countP fun x ↦ planted x ∧ reported x
        precisionRate := ratio (trades.countP fun x ↦ planted x ∧ reported x)
          (trades.countP fun x ↦ reported x)
        recallRate := ratio (trades.countP fun x ↦ planted x ∧ reported x)
          (trades.countP fun x ↦ planted x) } := by
  have hprecision := rate_eq_ratio (foundIds breaks anomalyType.breakType)
    (plantedIds log anomalyType)
  rw [Finset.inter_comm] at hprecision
  rw [score, hprecision, rate_eq_ratio, hplanted, hreported, inter_toFinset_named hnodup,
    card_toFinset_named hnodup, card_toFinset_named hnodup, card_toFinset_named hnodup]

/-! ## What a run plants -/

end Report

namespace Simulator

open Report

section Planted

variable {config : SimulatorConfig} {t : AnomalyType}

/-- What the log has to say of a fill. -/
def logKey (a : PlantedAnomaly) : Str × Option Str := (a.symbol, a.relatedFillId)

/-- The anomalies of a fill-scored type that one fill logs. -/
theorem map_logKey_logged (ht : t ≠ .sequenceGap) (draws : Draws) (tick : Tick) (s : Simulator) :
    ((s.logged config draws tick).filter fun a ↦ a.anomalyType = t).map logKey =
      if draws.anomalyType config = some t then [(tick.symbol, some draws.fillId)] else [] := by
  have hsingle : ∀ a : PlantedAnomaly, logKey a = (tick.symbol, some draws.fillId) →
      draws.anomalyType config = some a.anomalyType →
        ([a].filter fun a ↦ a.anomalyType = t).map logKey =
          if draws.anomalyType config = some t then [(tick.symbol, some draws.fillId)] else [] := by
    intro a hkey htype
    rw [htype, List.filter_singleton]
    by_cases ha : a.anomalyType = t
    · simp [ha, hkey]
    · simp [ha]
  rw [logged]
  split
  · rename_i htype
    exact hsingle _ rfl htype
  · rename_i htype
    exact hsingle _ rfl htype
  · rename_i htype
    rw [htype, if_neg (by simpa using Ne.symm ht), List.map_eq_nil_iff, List.filter_eq_nil_iff]
    intro a ha
    obtain ⟨r, -, rfl⟩ := List.mem_map.mp ha
    exact fun h ↦ ht (of_decide_eq_true h).symm
  · rename_i htype
    rw [htype]
    rfl

/-- **What a run logs of a type scored by fill**: a row for each trade that is to carry it. -/
theorem map_logKey_foldl (ht : t ≠ .sequenceGap) (events : List Event) (s : Simulator) :
    ((events.foldl (Event.apply config) s).bookStore.plantedAnomalies.filter
        fun a ↦ a.anomalyType = t).map logKey =
      (s.bookStore.plantedAnomalies.filter fun a ↦ a.anomalyType = t).map logKey ++
        ((trades events).filter fun trade ↦ trade.2.anomalyType config = some t).map
          fun trade ↦ (trade.1.symbol, some trade.2.fillId) := by
  induction events generalizing s with
  | nil => exact (List.append_nil _).symm
  | cons event rest ih =>
    cases event with
    | seen tick => exact ih (s.trackSequence tick)
    | filled tick draws =>
      obtain ⟨-, -, hlog⟩ := generateFill_stores config draws tick s
      rw [List.foldl_cons, Event.apply, ih (s.generateFill config draws tick), hlog,
        List.filter_append, List.map_append, map_logKey_logged ht, trades_filled, List.filter_cons,
        List.append_assoc]
      split
      · rename_i htype
        rw [if_pos (decide_eq_true htype)]
        rfl
      · rename_i htype
        rw [if_neg (by simpa using htype)]
        rfl

end Planted

section Run

variable {config : SimulatorConfig} {maxFills maxIdleReads : Option ℤ}
  {reads : List (List (Tick × Draws))} {tickStore : TickStore} {t : AnomalyType}

/-- The trades of a run. -/
def tradesOf (config : SimulatorConfig) (maxFills maxIdleReads : Option ℤ)
    (reads : List (List (Tick × Draws))) : List (Tick × Draws) :=
  trades (eventsOf config maxFills maxIdleReads reads)

/-- The rows of a run's log under a type scored by fill. -/
theorem exists_logged_iff (ht : t ≠ .sequenceGap) {key : Str × Option Str} :
    (∃ a ∈ (run config maxFills maxIdleReads reads
        { tickStore, bookStore := {} }).bookStore.plantedAnomalies,
      a.anomalyType = t ∧ logKey a = key) ↔
      ∃ trade ∈ tradesOf config maxFills maxIdleReads reads,
        trade.2.anomalyType config = some t ∧ (trade.1.symbol, some trade.2.fillId) = key := by
  have hlog := @map_logKey_foldl config t ht (eventsOf config maxFills maxIdleReads reads)
    { tickStore, bookStore := {} }
  rw [← run_eq, List.filter_nil, List.map_nil, List.nil_append] at hlog
  have hmem := congrArg (key ∈ ·) hlog
  simpa only [List.mem_map, List.mem_filter, decide_eq_true_eq, and_assoc, eq_iff_iff, tradesOf]
    using hmem

/-- The fills the report takes as planted are those of the trades that are to carry the type. -/
theorem plantedIds_report (ht : t ≠ .sequenceGap) :
    Report.plantedIds (run config maxFills maxIdleReads reads
        { tickStore, bookStore := {} }).bookStore.readPlantedAnomaliesDf t =
      (((tradesOf config maxFills maxIdleReads reads).filter fun trade ↦
        trade.2.anomalyType config = some t).map fun trade ↦ trade.2.fillId).toFinset := by
  ext id
  rw [mem_plantedIds, List.mem_toFinset, List.mem_map]
  constructor
  · rintro ⟨a, ha, htype, hid⟩
    obtain ⟨trade, htrade, hcarries, hkey⟩ := (exists_logged_iff ht).mp ⟨a, ha, htype, rfl⟩
    refine ⟨trade, List.mem_filter.mpr ⟨htrade, decide_eq_true hcarries⟩, ?_⟩
    have hsecond := congrArg Prod.snd hkey
    exact Option.some_inj.mp (hsecond.trans hid)
  · rintro ⟨trade, htrade, rfl⟩
    obtain ⟨htrade, hcarries⟩ := List.mem_filter.mp htrade
    obtain ⟨a, ha, htype, hkey⟩ := (@exists_logged_iff config maxFills maxIdleReads reads
      tickStore t ht _).mpr ⟨trade, htrade, of_decide_eq_true hcarries, rfl⟩
    exact ⟨a, ha, htype, congrArg Prod.snd hkey⟩

theorem mem_plantedIds_run (ht : t ≠ .sequenceGap) {symbol id : Str} :
    id ∈ (run config maxFills maxIdleReads reads
        { tickStore, bookStore := {} }).bookStore.plantedIds t symbol ↔
      ∃ trade ∈ tradesOf config maxFills maxIdleReads reads,
        trade.2.anomalyType config = some t ∧ trade.1.symbol = symbol ∧ trade.2.fillId = id := by
  have hkey := @exists_logged_iff config maxFills maxIdleReads reads tickStore t ht
    (symbol, some id)
  simp only [logKey, Prod.mk.injEq, Option.some.injEq] at hkey
  rw [← hkey, BookStore.plantedIds, List.mem_filterMap]
  simp only [List.mem_filter, decide_eq_true_eq, and_assoc]

/-! ## What the report finds -/

/-- The fills the report finds under a type are those named for one of its symbols. -/
theorem mem_foundIds_reconcileAll {r : Reconciler} {ticks : TickStore} {book : BookStore}
    {symbols : List Str} {start stop : Time} {breakType : BreakType} {id : Str} :
    id ∈ foundIds (r.reconcileAll ticks book symbols start stop) breakType ↔
      ∃ symbol ∈ symbols, id ∈ ((r.reconcileSymbol ticks book symbol start stop).filter
        fun b ↦ b.breakType = breakType).filterMap Break.relatedFillId := by
  rw [foundIds, Reconciler.reconcileAll, List.mem_toFinset, List.filter_flatMap,
    List.filterMap_flatMap, List.mem_flatMap]

variable {symbols : List Str} {start stop : Time}

/-- The fills reported under a type, where for each symbol they are those of a kind of trade. -/
theorem foundIds_report {r : Reconciler} {ticks : TickStore} {book : BookStore}
    {breakType : BreakType} {reported : Tick × Draws → Prop} [DecidablePred reported]
    (hreported : ∀ symbol id, id ∈ ((r.reconcileSymbol ticks book symbol start stop).filter
        fun b ↦ b.breakType = breakType).filterMap Break.relatedFillId ↔
      ∃ trade ∈ tradesOf config maxFills maxIdleReads reads,
        reported trade ∧ trade.1.symbol = symbol ∧ trade.2.fillId = id) :
    foundIds (r.reconcileAll ticks book symbols start stop) breakType =
      (((tradesOf config maxFills maxIdleReads reads).filter fun trade ↦
        trade.1.symbol ∈ symbols ∧ reported trade).map fun trade ↦ trade.2.fillId).toFinset := by
  ext id
  rw [mem_foundIds_reconcileAll, List.mem_toFinset, List.mem_map]
  simp only [hreported, List.mem_filter, decide_eq_true_eq]
  constructor
  · rintro ⟨symbol, hsymbol, trade, htrade, hreport, rfl, hid⟩
    exact ⟨trade, ⟨htrade, hsymbol, hreport⟩, hid⟩
  · rintro ⟨trade, ⟨htrade, hsymbol, hreport⟩, hid⟩
    exact ⟨_, hsymbol, trade, htrade, hreport, rfl, hid⟩

/-- The row of a type scored by fill, where the trades that are `reported` are those the reconciler
reports under it. -/
def rowOf (config : SimulatorConfig) (trades : List (Tick × Draws)) (symbols : List Str)
    (anomalyType : AnomalyType) (reported : Tick × Draws → Prop) [DecidablePred reported] :
    Score :=
  let planted := trades.countP fun trade ↦ trade.2.anomalyType config = some anomalyType
  let flagged := trades.countP fun trade ↦ trade.1.symbol ∈ symbols ∧ reported trade
  let found := trades.countP fun trade ↦ trade.2.anomalyType config = some anomalyType ∧
    trade.1.symbol ∈ symbols ∧ reported trade
  { anomalyType, planted, found, precisionRate := ratio found flagged
    recallRate := ratio found planted }

/-- **The precision and recall of a simulated run.**  A report over a window that covers a single
run from an empty book shows the section exactly when something was planted.  Its rows are those of
the trades of the run: an unmatched fill is reported when its trade is left far from every tick,
and a drift exactly when it was planted. -/
theorem report_of_run (config : SimulatorConfig) (maxFills maxIdleReads : Option ℤ)
    (reads : List (List (Tick × Draws))) (tickStore : TickStore)
    (hfresh : (reads.flatten.map fun m ↦ m.2.fillId).Nodup) (symbols : List Str)
    (hoursBack minutesForward : ℤ) (clock : Time × Time × Time) :
    let final := run config maxFills maxIdleReads reads { tickStore, bookStore := {} }
    let start := clock.1 - hours hoursBack
    let stop := clock.2.1 + minutes minutesForward
    (∀ row ∈ tickStore, start - seconds 5 ≤ row.time ∧ row.time ≤ stop + seconds 5) →
      (∀ f ∈ final.bookStore.fills,
        start - seconds 5 ≤ f.timestamp ∧ f.timestamp ≤ stop + seconds 5) →
      (∀ p ∈ final.bookStore.positions, start ≤ p.lastUpdated ∧ p.lastUpdated ≤ stop) →
      (generateBreakReport final.tickStore final.bookStore symbols hoursBack minutesForward
          clock).scores.map Scores.rows =
        if final.bookStore.plantedAnomalies = [] then none
        else
          let trades := tradesOf config maxFills maxIdleReads reads
          some
            [rowOf config trades symbols .unmatchedFill
                (LeftFar {} config maxFills maxIdleReads reads tickStore),
              rowOf config trades symbols .positionDrift fun trade ↦
                trade.2.anomalyType config = some .positionDrift] := by
  intro final start stop hticks hfills hpositions
  have hnodup : ((tradesOf config maxFills maxIdleReads reads).map fun trade ↦
      trade.2.fillId).Nodup := by
    rw [tradesOf, map_trades]
    exact filledIds_eventsOf_nodup hfresh
  have hunmatched : score final.bookStore.readPlantedAnomaliesDf
      (Reconciler.reconcileAll {} final.tickStore final.bookStore symbols start stop)
        .unmatchedFill = rowOf config (tradesOf config maxFills maxIdleReads reads) symbols
          .unmatchedFill (LeftFar {} config maxFills maxIdleReads reads tickStore) := by
    refine score_eq hnodup (plantedIds_report (by decide)) (foundIds_report fun symbol id ↦ ?_)
    have hperm := reportedUnmatched_run (r := {}) hfresh symbol hticks hfills
    refine hperm.mem_iff.trans ?_
    rw [List.mem_map]
    simp only [List.mem_filter, decide_eq_true_eq, tradesOf]
    constructor
    · rintro ⟨trade, ⟨htrade, hsymbol, hfar⟩, hid⟩
      exact ⟨trade, htrade, hfar, hsymbol, hid⟩
    · rintro ⟨trade, htrade, hfar, hsymbol, hid⟩
      exact ⟨trade, ⟨htrade, hsymbol, hfar⟩, hid⟩
  have hdrift : score final.bookStore.readPlantedAnomaliesDf
      (Reconciler.reconcileAll {} final.tickStore final.bookStore symbols start stop)
        .positionDrift = rowOf config (tradesOf config maxFills maxIdleReads reads) symbols
          .positionDrift fun trade ↦ trade.2.anomalyType config = some .positionDrift := by
    refine score_eq hnodup (plantedIds_report (by decide)) (foundIds_report fun symbol id ↦ ?_)
    have hinvariant := driftInvariant_run config maxFills maxIdleReads reads hfresh tickStore
    exact (hinvariant.mem_reportedDrifts final.tickStore hfills hpositions symbol id).trans
      (mem_plantedIds_run (by decide))
  have hempty : final.bookStore.readPlantedAnomaliesDf = []
      ↔ final.bookStore.plantedAnomalies = [] := by
    rw [BookStore.readPlantedAnomaliesDf, ← List.length_eq_zero_iff, ← List.length_eq_zero_iff,
      (Frame.sortBy_perm _ _).length_eq]
  rw [generateBreakReport]
  dsimp only
  rw [scoresOf, if_congr hempty rfl rfl]
  split
  · rfl
  · rw [← hunmatched, ← hdrift]
    rfl

end Run

/-! ### A shifted fill, and a drift in a symbol nobody asks for -/

/-- The shifted fill among ticks ten minutes apart, and a drifted fill of another symbol. -/
def reportedReads : List (List (Tick × Draws)) :=
  shiftedReads 10 ++
    [[({ btcTick 1 0 with symbol := "ETH-USD".toList }, { driftDraws with fillId := "f3".toList })]]

/-- The shifted fill is found.  The drift counts as planted, and as missed. -/
theorem report_of_shifted_and_drifted :
    let final := run {} none none reportedReads { tickStore := shiftedStore 10, bookStore := {} }
    (generateBreakReport final.tickStore final.bookStore ["BTC-USD".toList] 6 30
        (0, 0, 0)).scores.map Scores.rows =
      some
        [{ anomalyType := .unmatchedFill, planted := 1, found := 1, precisionRate := some 1
           recallRate := some 1 },
          { anomalyType := .positionDrift, planted := 1, found := 0, precisionRate := none
            recallRate := some 0 }] :=
  (report_of_run {} none none reportedReads (shiftedStore 10) (by decide) ["BTC-USD".toList] 6 30
    (0, 0, 0) (by decide +kernel) (by decide +kernel) (by decide +kernel)).trans
      (by decide +kernel)

end Simulator

end PostTrade
