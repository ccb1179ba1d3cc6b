import PostTrade.Simulate.Drift
import PostTrade.Simulate.Plantings
import PostTrade.Reconcile.UnmatchedFills

/-!
# Planted and reported unmatched fills

The simulator plants an unmatched fill by shifting its time a quarter of an hour away from the
tick it answers, and the reconciler reports a fill with no tick of its symbol near it.  Nothing
looks at the other ticks when the time is shifted, and nothing looks at the fills when a sequence
gap deletes ticks.

`unmatched_planted_iff` says when the two agree over a run: exactly when it is the shifted fills,
and no others, that are far from every tick the gaps of the run leave in the store.  The condition
is about what the run is given: its events, what they draw, and the ticks stored before it.
-/

set_option autoImplicit false

namespace PostTrade

namespace Simulator

/-- The time the fill of a trade is stamped with. -/
def fillTime (config : SimulatorConfig) (trade : Tick × Draws) : Time :=
  if trade.2.anomalyType config = some .unmatchedFill then
    trade.1.exchangeTimestamp + minutes trade.2.shift
  else trade.1.exchangeTimestamp

/-! ## What a run books -/

section Book

variable (config : SimulatorConfig)

/-- What the reconciler is to find of a fill. -/
def fillKey (f : Fill) : Str × Str × Time := (f.fillId, f.symbol, f.timestamp)

/-- What a trade books under it. -/
def tradeKey (trade : Tick × Draws) : Str × Str × Time :=
  (trade.2.fillId, trade.1.symbol, fillTime config trade)

/-- **What a run books.**  It stores a fill for each trade, and logs as unmatched fills those whose
time it shifted. -/
theorem foldl_book (events : List Event) (s : Simulator) (hnd : (filledIds events).Nodup)
    (hfresh : ∀ id ∈ filledIds events, id ∉ s.bookStore.fills.map Fill.fillId) :
    let s' := events.foldl (Event.apply config) s
    s'.bookStore.fills.map fillKey
        = s.bookStore.fills.map fillKey ++ (trades events).map (tradeKey config) ∧
      (s'.bookStore.plantedAnomalies.filter fun a ↦ a.anomalyType = .unmatchedFill) =
        (s.bookStore.plantedAnomalies.filter fun a ↦ a.anomalyType = .unmatchedFill) ++
          ((trades events).filter fun t ↦ t.2.anomalyType config = some .unmatchedFill).map
            fun t ↦ unmatchedAnomaly t.2 t.1 := by
  induction events generalizing s with
  | nil => exact ⟨(List.append_nil _).symm, (List.append_nil _).symm⟩
  | cons event rest ih =>
    cases event with
    | seen tick => exact ih (s.trackSequence tick) hnd hfresh
    | filled tick draws =>
      rw [filledIds_filled] at hnd hfresh
      have hfills := (generateFill_cases config draws tick (hfresh _ List.mem_cons_self)).1
      obtain ⟨-, -, hlog⟩ := generateFill_stores config draws tick s
      obtain ⟨ihfills, ihlog⟩ := ih (s.generateFill config draws tick)
        (List.nodup_cons.mp hnd).2 (fresh_generateFill hnd hfresh)
      rw [hfills, List.map_append, List.append_assoc] at ihfills
      rw [hlog, List.filter_append, filter_unmatchedFill_logged, List.append_assoc] at ihlog
      refine ⟨ihfills, ihlog.trans ?_⟩
      rw [trades_filled, List.filter_cons]
      split
      · rename_i htype
        rw [if_pos (by simpa using htype)]
        rfl
      · rename_i htype
        rw [if_neg (by simpa using htype)]
        rfl

end Book

/-! ## What the reconciler reports -/

section Reported

variable (r : Reconciler) (config : SimulatorConfig) (maxFills maxIdleReads : Option ℤ)
  (reads : List (List (Tick × Draws))) (tickStore : TickStore)

/-- The trade is far from every tick of its symbol that the run leaves in the store. -/
def LeftFar (trade : Tick × Draws) : Prop :=
  r.FarFrom ((survivors (plantings config (eventsOf config maxFills maxIdleReads reads))
    tickStore).filter fun t ↦ t.symbol = trade.1.symbol) (fillTime config trade)

instance (trade : Tick × Draws) :
    Decidable (LeftFar r config maxFills maxIdleReads reads tickStore trade) :=
  inferInstanceAs (Decidable (r.FarFrom _ _))

variable {r config maxFills maxIdleReads reads tickStore}

/-- The ticks of a symbol a covering window reads are those the run leaves. -/
theorem farFrom_readTicksDf_iff {ps : List Planting} {start stop : Time}
    (hticks : ∀ row ∈ tickStore, start - r.tickMatchWindow ≤ row.time ∧
      row.time ≤ stop + r.tickMatchWindow) (symbol : Str) (time : Time) :
    r.FarFrom ((survivors ps tickStore).readTicksDf symbol (start - r.tickMatchWindow)
        (stop + r.tickMatchWindow)) time ↔
      r.FarFrom ((survivors ps tickStore).filter fun t ↦ t.symbol = symbol) time := by
  refine forall_congr' fun row ↦ imp_congr_left ?_
  rw [TickStore.mem_readTicksDf, List.mem_filter, decide_eq_true_eq]
  constructor
  · rintro ⟨hrow, hsym, -⟩
    exact ⟨hrow, hsym⟩
  · rintro ⟨hrow, hsym⟩
    exact ⟨hrow, hsym, hticks row (mem_survivors.mp hrow).1⟩

/-- Under distinct names, two selections name the same exactly when they are the same. -/
theorem perm_map_filter_iff {α β : Type*} {name : α → β} {l : List α}
    (hnd : (l.map name).Nodup) {p q : α → Prop} [DecidablePred p] [DecidablePred q] :
    ((l.filter fun x ↦ p x).map name).Perm ((l.filter fun x ↦ q x).map name) ↔
      ∀ x ∈ l, (p x ↔ q x) := by
  have hmem : ∀ (p : α → Prop) [DecidablePred p], ∀ x ∈ l,
      name x ∈ (l.filter fun y ↦ p y).map name ↔ p x := by
    intro p _ x hx
    simp only [List.mem_map, List.mem_filter, decide_eq_true_eq]
    constructor
    · rintro ⟨y, ⟨hy, hpy⟩, hname⟩
      rwa [← List.inj_on_of_nodup_map hnd hy hx hname]
    · intro hpx
      exact ⟨x, ⟨hx, hpx⟩, rfl⟩
  constructor
  · intro hperm x hx
    rw [← hmem p x hx, ← hmem q x hx]
    exact hperm.mem_iff
  · intro hiff
    refine List.Perm.of_eq (congrArg _ (List.filter_congr fun x hx ↦ ?_))
    exact decide_eq_decide.mpr (hiff x hx)

section Run

variable (hnd : (reads.flatten.map fun m ↦ m.2.fillId).Nodup)

include hnd

theorem filledIds_eventsOf_nodup :
    (filledIds (eventsOf config maxFills maxIdleReads reads)).Nodup :=
  (eventsOf_spec config maxFills maxIdleReads reads).filled.nodup hnd

/-- The fills planted as unmatched by a run from an empty book are those of the trades whose time it
shifted. -/
theorem plantedIds_run (symbol : Str) :
    (run config maxFills maxIdleReads reads
        { tickStore, bookStore := {} }).bookStore.plantedIds .unmatchedFill symbol =
      ((trades (eventsOf config maxFills maxIdleReads reads)).filter fun t ↦
        t.1.symbol = symbol ∧ t.2.anomalyType config = some .unmatchedFill).map
          fun t ↦ t.2.fillId := by
  have hlog := (foldl_book config (eventsOf config maxFills maxIdleReads reads)
    { tickStore, bookStore := {} } (filledIds_eventsOf_nodup hnd) (by simp)).2
  rw [← run_eq, List.filter_nil, List.nil_append] at hlog
  show (BookStore.anomaliesOf _ .unmatchedFill symbol).filterMap _ = _
  rw [BookStore.anomaliesOf_eq, hlog, List.filter_map, List.filter_filter, List.filterMap_map,
    ← List.filterMap_eq_map]
  refine congrArg₂ _ rfl (List.filter_congr fun t _ ↦ ?_)
  simp [unmatchedAnomaly]

/-- The fills reported as unmatched are those of the trades left far from every tick. -/
theorem reportedUnmatched_run (symbol : Str) {start stop : Time}
    (hticks : ∀ row ∈ tickStore, start - r.tickMatchWindow ≤ row.time ∧
      row.time ≤ stop + r.tickMatchWindow) :
    let final := run config maxFills maxIdleReads reads { tickStore, bookStore := {} }
    (∀ f ∈ final.bookStore.fills, start - r.tickMatchWindow ≤ f.timestamp ∧
        f.timestamp ≤ stop + r.tickMatchWindow) →
      (reportedUnmatched (r.reconcileSymbol final.tickStore final.bookStore symbol start
        stop)).Perm
          (((trades (eventsOf config maxFills maxIdleReads reads)).filter fun t ↦
            t.1.symbol = symbol ∧ LeftFar r config maxFills maxIdleReads reads tickStore t).map
              fun t ↦ t.2.fillId) := by
  intro final hfills
  set events := eventsOf config maxFills maxIdleReads reads with hevents
  have hfinal : final = events.foldl (Event.apply config) { tickStore, bookStore := {} } :=
    run_eq config maxFills maxIdleReads reads tickStore {}
  have hbook := (foldl_book config events { tickStore, bookStore := {} }
    (filledIds_eventsOf_nodup hnd) (by simp)).1
  have hstores := (foldl_stores config events { tickStore, bookStore := {} }).1
  rw [← hfinal] at hbook hstores
  rw [List.map_nil, List.nil_append] at hbook
  set left := survivors (plantings config events) tickStore with hleft
  -- being reported is about the key of a fill alone
  have hverdict : ∀ f ∈ final.bookStore.fills,
      ((f.symbol = symbol ∧ start - r.tickMatchWindow ≤ f.timestamp ∧
          f.timestamp ≤ stop + r.tickMatchWindow) ∧
        r.FarFrom (final.tickStore.readTicksDf symbol (start - r.tickMatchWindow)
          (stop + r.tickMatchWindow)) f.timestamp) ↔
      (fillKey f).2.1 = symbol ∧
        r.FarFrom (left.filter fun t ↦ t.symbol = symbol) (fillKey f).2.2 := by
    intro f hf
    rw [hstores, farFrom_readTicksDf_iff hticks]
    constructor
    · rintro ⟨⟨hsym, -⟩, hfar⟩
      exact ⟨hsym, hfar⟩
    · rintro ⟨hsym, hfar⟩
      exact ⟨⟨hsym, hfills f hf⟩, hfar⟩
  rw [Reconciler.reportedUnmatched_reconcileSymbol, BookStore.readFillsDf]
  refine (((Frame.sortBy_perm _ _).filter _).map _).trans (List.Perm.of_eq ?_)
  rw [List.filter_filter]
  calc (final.bookStore.fills.filter _).map Fill.fillId
      = (final.bookStore.fills.filter fun f ↦ (fillKey f).2.1 = symbol ∧
          r.FarFrom (left.filter fun t ↦ t.symbol = symbol) (fillKey f).2.2).map Fill.fillId := by
        refine congrArg _ (List.filter_congr fun f hf ↦ ?_)
        rw [← decide_eq_decide.mpr (hverdict f hf)]
        exact (Bool.and_comm _ _).trans (Bool.decide_and _ _).symm
    _ = ((final.bookStore.fills.map fillKey).filter fun k ↦ k.2.1 = symbol ∧
          r.FarFrom (left.filter fun t ↦ t.symbol = symbol) k.2.2).map Prod.fst := by
        rw [List.filter_map, List.map_map]
        rfl
    _ = _ := by
        rw [hbook, List.filter_map, List.map_map]
        refine congrArg₂ _ rfl (List.filter_congr fun t _ ↦ decide_eq_decide.mpr ?_)
        refine and_congr_right fun hsym ↦ ?_
        rw [LeftFar, show t.1.symbol = symbol from hsym]
        rfl

end Run

variable (r config maxFills maxIdleReads reads tickStore)

/-- **When planted unmatched fills are found exactly.**  Over a run from an empty book, and a window
that covers all ticks and fills, the unmatched fills reported for a symbol are those planted, each
once, exactly when the trades whose time is shifted are those left far from every tick. -/
theorem unmatched_planted_iff (hnd : (reads.flatten.map fun m ↦ m.2.fillId).Nodup) (symbol : Str)
    (start stop : Time)
    (hticks : ∀ row ∈ tickStore, start - r.tickMatchWindow ≤ row.time ∧
      row.time ≤ stop + r.tickMatchWindow) :
    let final := run config maxFills maxIdleReads reads { tickStore, bookStore := {} }
    (∀ f ∈ final.bookStore.fills, start - r.tickMatchWindow ≤ f.timestamp ∧
        f.timestamp ≤ stop + r.tickMatchWindow) →
      ((reportedUnmatched (r.reconcileSymbol final.tickStore final.bookStore symbol start
          stop)).Perm (final.bookStore.plantedIds .unmatchedFill symbol) ↔
        ∀ trade ∈ trades (eventsOf config maxFills maxIdleReads reads), trade.1.symbol = symbol →
          (trade.2.anomalyType config = some .unmatchedFill ↔
            LeftFar r config maxFills maxIdleReads reads tickStore trade)) := by
  intro final hfills
  have hreported := reportedUnmatched_run (r := r) hnd symbol hticks hfills
  rw [plantedIds_run hnd, hreported.congr_left,
    perm_map_filter_iff (by rw [map_trades]; exact filledIds_eventsOf_nodup hnd)]
  refine forall₂_congr fun t _ ↦ ?_
  rw [and_congr_right_iff]
  exact forall_congr' fun _ ↦ iff_comm

end Reported

/-! ### A shifted fill among the ticks of a quiet quarter of an hour -/

/-- A tick with the given sequence, at the given minute. -/
def tickAtMinute (sequence minute : ℤ) : Tick := btcTick sequence (minutes minute)

/-- Draws that trade and shift the fill a quarter of an hour ahead. -/
def shiftedDraws : Draws := { driftDraws with anomalyChoice := .unmatchedFill }

/-- Draws that do not trade. -/
def idleDraws : Draws := { driftDraws with tradeRoll := 1, fillId := "f2".toList }

/-- The next tick comes after `gap` minutes. -/
def shiftedReads (gap : ℤ) : List (List (Tick × Draws)) :=
  [[(tickAtMinute 1 0, shiftedDraws), (tickAtMinute 2 gap, idleDraws)]]

def shiftedStore (gap : ℤ) : TickStore :=
  [TickRow.ofTick (tickAtMinute 1 0) none, TickRow.ofTick (tickAtMinute 2 gap) none]

/-- With the next tick ten minutes away, the planted fill is the one reported. -/
theorem unmatched_planted_of_far_tick :
    let final := run {} none none (shiftedReads 10)
      { tickStore := shiftedStore 10, bookStore := {} }
    (reportedUnmatched (Reconciler.reconcileSymbol {} final.tickStore final.bookStore
      "BTC-USD".toList 0 (minutes 20))).Perm
        (final.bookStore.plantedIds .unmatchedFill "BTC-USD".toList) :=
  (unmatched_planted_iff {} {} none none (shiftedReads 10) (shiftedStore 10) (by decide)
    "BTC-USD".toList 0 (minutes 20) (by decide) (by decide +kernel)).mpr (by decide +kernel)

/-- With the next tick a quarter of an hour away, the planted fill lands on it and is missed. -/
theorem shifted_onto_tick_not_reported :
    let final := run {} none none (shiftedReads 15)
      { tickStore := shiftedStore 15, bookStore := {} }
    (∀ row ∈ shiftedStore 15, 0 ≤ row.time ∧ row.time ≤ minutes 20) ∧
      (∀ f ∈ final.bookStore.fills, 0 ≤ f.timestamp ∧ f.timestamp ≤ minutes 20) ∧
        ((shiftedReads 15).flatten.map fun m ↦ m.2.fillId).Nodup ∧
          (∀ m ∈ (shiftedReads 15).flatten, TickRow.ofTick m.1 none ∈ shiftedStore 15) ∧
            final.bookStore.plantedIds .unmatchedFill "BTC-USD".toList = ["f1".toList] ∧
              reportedUnmatched (Reconciler.reconcileSymbol {} final.tickStore final.bookStore
                "BTC-USD".toList 0 (minutes 20)) = [] := by
  refine ⟨?_, ?_, ?_, ?_, ?_, ?_⟩
  · decide
  · decide +kernel
  · decide
  · decide +kernel
  · decide +kernel
  · decide +kernel

end Simulator

end PostTrade
