import PostTrade.Reconcile.PositionDrift
import PostTrade.Simulate.TradeBookSimulator

/-!
# The simulator and the drift scan agree

The simulator keeps a running true position of its own and records it after each fill, displaced
when it plants a drift.  The reconciler sees none of that: it recomputes positions from the stored
fills.  `DriftInvariant` ties the two together.  Per symbol, fill sequences increase in the order
written, the running position is the total of the stored fills, and every recorded snapshot names
a stored fill and differs from the book's position after that fill by a planted drift of at least
a hundredth or not at all.

One fill preserves the invariant because it comes after all others in sequence, so the book's
position after every earlier fill stays what it was.  From it, the breaks the reconciler reports
over a window that covers the run are exactly the drifts the run planted.
-/

set_option autoImplicit false

namespace PostTrade

namespace BookStore

/-- The fill ids logged as planted anomalies of one type, for one symbol. -/
def plantedIds (book : BookStore) (anomalyType : AnomalyType) (symbol : Str) : List Str :=
  (book.plantedAnomalies.filter fun a ↦
    a.anomalyType = anomalyType ∧ a.symbol = symbol).filterMap PlantedAnomaly.relatedFillId

variable {book book' : BookStore} {fill : Fill}

theorem fillsOf_append (hfills : book'.fills = book.fills ++ [fill]) (symbol : Str) :
    book'.fillsOf symbol
      = book.fillsOf symbol ++ if fill.symbol = symbol then [fill] else [] := by
  rw [fillsOf, hfills, List.filter_append, fillsOf]
  congr 1
  by_cases h : fill.symbol = symbol <;> simp [h]

/-- A fill that comes last in sequence leaves the position after every earlier one alone. -/
theorem positionAt_append_of_lt (hfills : book'.fills = book.fills ++ [fill]) {symbol : Str}
    {n : ℤ} (h : fill.symbol = symbol → n < fill.sequence) :
    book'.positionAt symbol n = book.positionAt symbol n := by
  have hlast : Frame.prefixTotal Fill.sequence Fill.signedQty
      (if fill.symbol = symbol then [fill] else []) n = 0 := by
    refine Frame.prefixTotal_eq_zero Fill.sequence Fill.signedQty fun f hf ↦ ?_
    split at hf
    · rename_i hsym
      rw [List.mem_singleton.mp hf]
      exact h hsym
    · simp at hf
  rw [positionAt, fillsOf_append hfills, Frame.prefixTotal_append, hlast, add_zero, positionAt]

/-- The position after a fill that comes last in sequence is the total of all of them. -/
theorem positionAt_append_self (hfills : book'.fills = book.fills ++ [fill])
    (h : ∀ f ∈ book.fillsOf fill.symbol, f.sequence < fill.sequence) :
    book'.positionAt fill.symbol fill.sequence
      = ((book.fillsOf fill.symbol).map Fill.signedQty).sum + fill.signedQty := by
  rw [positionAt, Frame.prefixTotal_eq_sum, fillsOf_append hfills, if_pos rfl, List.map_append,
    List.sum_append]
  · simp
  · intro f hf
    rw [fillsOf_append hfills, if_pos rfl, List.mem_append, List.mem_singleton] at hf
    rcases hf with hf | rfl
    · exact (h f hf).le
    · exact le_rfl

theorem plantedIds_append {a : PlantedAnomaly}
    (hlog : book'.plantedAnomalies = book.plantedAnomalies ++ [a]) (t : AnomalyType)
    (symbol : Str) :
    book'.plantedIds t symbol = book.plantedIds t symbol ++
      if a.anomalyType = t ∧ a.symbol = symbol then a.relatedFillId.toList else [] := by
  rw [plantedIds, hlog, List.filter_append, List.filterMap_append, plantedIds]
  congr 1
  by_cases h : a.anomalyType = t ∧ a.symbol = symbol
  · cases hid : a.relatedFillId <;> simp [h, hid]
  · simp [h]

end BookStore

namespace Simulator

/-- What the book of a running simulator satisfies. -/
structure DriftInvariant (s : Simulator) : Prop where
  /-- Fill ids are distinct. -/
  ids : (s.bookStore.fills.map Fill.fillId).Nodup
  /-- The fills of a symbol were written in the order of their sequences. -/
  ordered : ∀ symbol,
    (s.bookStore.fillsOf symbol).Pairwise fun f g ↦ f.sequence < g.sequence
  /-- The counter of a symbol is past all of its fills. -/
  below : ∀ f ∈ s.bookStore.fills, f.sequence < s.fillSequences f.symbol
  /-- The running position is the total of the stored fills. -/
  truth : ∀ symbol, (s.truePosition symbol).getD 0
    = ((s.bookStore.fillsOf symbol).map Fill.signedQty).sum
  /-- No two snapshots name the same fill. -/
  snapshots : (s.bookStore.positions.filterMap Position.lastFillId).Nodup
  /-- A snapshot is off by a planted drift, or not at all. -/
  drifted : ∀ pos ∈ s.bookStore.positions, ∃ f ∈ s.bookStore.fillsOf pos.symbol,
    pos.lastFillId = some f.fillId ∧
      (f.fillId ∈ s.bookStore.plantedIds .positionDrift pos.symbol ∧
          1 / 100 ≤ |pos.quantity - s.bookStore.positionAt pos.symbol f.sequence| ∨
        f.fillId ∉ s.bookStore.plantedIds .positionDrift pos.symbol ∧
          pos.quantity = s.bookStore.positionAt pos.symbol f.sequence)
  /-- A planted drift has its snapshot. -/
  planted : ∀ symbol, ∀ id ∈ s.bookStore.plantedIds .positionDrift symbol,
    ∃ pos ∈ s.bookStore.positions, pos.symbol = symbol ∧ pos.lastFillId = some id
  /-- No fill is logged as drifted twice. -/
  plantedOnce : ∀ symbol, (s.bookStore.plantedIds .positionDrift symbol).Nodup

theorem Draws.le_abs_drift (d : Draws) : 1 / 100 ≤ |d.drift| := by
  have hsize := d.driftSize_bounds.1
  have hsign : |d.driftSign| = 1 := by
    rcases d.driftSign_eq with h | h <;> rw [h] <;> norm_num
  rw [Draws.drift, abs_mul, hsign, mul_one, abs_of_nonneg (by linarith)]
  exact hsize

theorem DriftInvariant.empty (tickStore : TickStore) :
    DriftInvariant { tickStore, bookStore := {} } where
  ids := List.nodup_nil
  ordered _ := List.Pairwise.nil
  below _ hf := by simp at hf
  truth _ := rfl
  snapshots := List.nodup_nil
  drifted _ hpos := by simp at hpos
  planted _ _ hid := by simp [BookStore.plantedIds] at hid
  plantedOnce _ := List.nodup_nil

theorem DriftInvariant.trackSequence {s : Simulator} (h : DriftInvariant s) (tick : Tick) :
    DriftInvariant (s.trackSequence tick) :=
  ⟨h.ids, h.ordered, h.below, h.truth, h.snapshots, h.drifted, h.planted, h.plantedOnce⟩

section Fill

variable {s : Simulator} (h : DriftInvariant s)

include h in
theorem DriftInvariant.distinctFills (symbol : Str) : s.bookStore.DistinctFills symbol where
  ids := h.ids.sublist (List.filter_sublist.map _)
  sequences := by
    rw [List.Nodup, List.pairwise_map]
    exact (h.ordered symbol).imp fun hlt ↦ ne_of_lt hlt

include h in
/-- Snapshots and planted drifts only name stored fills. -/
theorem DriftInvariant.mem_fills_of_snapshot {pos : Position} (hpos : pos ∈ s.bookStore.positions)
    {id : Str} (hid : pos.lastFillId = some id) : id ∈ s.bookStore.fills.map Fill.fillId := by
  obtain ⟨f, hf, hlast, -⟩ := h.drifted pos hpos
  rw [hlast, Option.some.injEq] at hid
  exact hid ▸ List.mem_map_of_mem (BookStore.mem_fillsOf.mp hf).1

include h in
theorem DriftInvariant.mem_fills_of_planted {symbol id : Str}
    (hid : id ∈ s.bookStore.plantedIds .positionDrift symbol) :
    id ∈ s.bookStore.fills.map Fill.fillId := by
  obtain ⟨pos, hpos, -, hlast⟩ := h.planted symbol id hid
  exact h.mem_fills_of_snapshot hpos hlast

include h in
theorem DriftInvariant.lt_newFill (config : SimulatorConfig) (tick : Tick) (draws : Draws) :
    ∀ f ∈ s.bookStore.fillsOf tick.symbol,
      f.sequence < (s.newFill config draws tick).sequence := by
  intro f hf
  obtain ⟨hmem, hsym⟩ := BookStore.mem_fillsOf.mp hf
  rw [newFill_sequence, ← hsym]
  exact h.below f hmem

/-- What a fill does to the simulator: `new` is the snapshot it records, if any, and `isDrift` says
whether it plants a drift. -/
structure Filled (s : Simulator) (config : SimulatorConfig) (tick : Tick) (draws : Draws)
    (new : Option Position) (isDrift : Bool) (s' : Simulator) : Prop where
  fresh : draws.fillId ∉ s.bookStore.fills.map Fill.fillId
  fills : s'.bookStore.fills = s.bookStore.fills ++ [s.newFill config draws tick]
  truePosition : s'.truePosition = Function.update s.truePosition tick.symbol
    (some (s.nextTrue config draws tick))
  fillSequences : s'.fillSequences
    = Function.update s.fillSequences tick.symbol (s.fillSequences tick.symbol + 1)
  positions : s'.bookStore.positions = s.bookStore.positions ++ new.toList
  planted : ∀ symbol, s'.bookStore.plantedIds .positionDrift symbol
    = s.bookStore.plantedIds .positionDrift symbol ++
      if isDrift ∧ tick.symbol = symbol then [draws.fillId] else []
  snapshot : ∀ pos ∈ new, pos.symbol = tick.symbol ∧ pos.lastFillId = some draws.fillId ∧
    if isDrift then 1 / 100 ≤ |pos.quantity - s.nextTrue config draws tick|
    else pos.quantity = s.nextTrue config draws tick
  drift : isDrift → new.isSome

variable {config : SimulatorConfig} {tick : Tick} {draws : Draws} {new : Option Position}
  {isDrift : Bool} {s' : Simulator} (hfill : Filled s config tick draws new isDrift s')

include h hfill

theorem DriftInvariant.ids_step : (s'.bookStore.fills.map Fill.fillId).Nodup := by
  rw [hfill.fills, List.map_append, List.nodup_append]
  refine ⟨h.ids, by simp, fun a ha b hb hab ↦ ?_⟩
  rw [List.map_singleton, List.mem_singleton, newFill_fillId] at hb
  exact hfill.fresh (hb ▸ hab ▸ ha)

theorem DriftInvariant.ordered_step (symbol : Str) :
    (s'.bookStore.fillsOf symbol).Pairwise fun f g ↦ f.sequence < g.sequence := by
  rw [BookStore.fillsOf_append hfill.fills, List.pairwise_append]
  refine ⟨h.ordered symbol, ?_, fun f hf g hg ↦ ?_⟩
  · split <;> simp
  · split at hg
    · rename_i hsym
      rw [List.mem_singleton.mp hg]
      rw [newFill_symbol] at hsym
      exact h.lt_newFill config tick draws f (hsym.symm ▸ hf)
    · simp at hg

theorem DriftInvariant.below_step :
    ∀ f ∈ s'.bookStore.fills, f.sequence < s'.fillSequences f.symbol := by
  intro f hf
  rw [hfill.fillSequences]
  rw [hfill.fills, List.mem_append, List.mem_singleton] at hf
  rcases hf with hf | rfl
  · have hlt := h.below f hf
    by_cases hsym : f.symbol = tick.symbol
    · rw [hsym] at hlt ⊢
      rw [Function.update_self]
      omega
    · rwa [Function.update_of_ne hsym]
  · rw [newFill_symbol, newFill_sequence, Function.update_self]
    exact lt_add_one _

theorem DriftInvariant.truth_step (symbol : Str) : (s'.truePosition symbol).getD 0
    = ((s'.bookStore.fillsOf symbol).map Fill.signedQty).sum := by
  rw [hfill.truePosition, BookStore.fillsOf_append hfill.fills, List.map_append, List.sum_append]
  by_cases hsym : symbol = tick.symbol
  · subst hsym
    rw [Function.update_self, newFill_symbol, if_pos rfl, Option.getD_some, nextTrue,
      h.truth tick.symbol]
    simp
  · rw [Function.update_of_ne hsym, newFill_symbol, if_neg (Ne.symm hsym), h.truth symbol]
    simp

theorem DriftInvariant.snapshots_step :
    (s'.bookStore.positions.filterMap Position.lastFillId).Nodup := by
  rw [hfill.positions, List.filterMap_append, List.nodup_append]
  refine ⟨h.snapshots, ?_, fun a ha b hb hab ↦ ?_⟩
  · cases new with
    | none => simp
    | some pos => simp [(hfill.snapshot pos rfl).2.1]
  · cases new with
    | none => simp at hb
    | some pos =>
      obtain ⟨old, hold, hlast⟩ := List.mem_filterMap.mp ha
      simp only [Option.toList_some, List.filterMap_cons, (hfill.snapshot pos rfl).2.1,
        List.filterMap_nil, List.mem_singleton] at hb
      exact hfill.fresh (hb ▸ hab ▸ h.mem_fills_of_snapshot hold hlast)

/-- The position of the book after the new fill is the simulator's. -/
theorem DriftInvariant.positionAt_newFill :
    s'.bookStore.positionAt tick.symbol (s.newFill config draws tick).sequence
      = s.nextTrue config draws tick := by
  have hlt := h.lt_newFill config tick draws
  rw [nextTrue, h.truth tick.symbol]
  exact BookStore.positionAt_append_self hfill.fills hlt

/-- The snapshots already recorded stand as they did. -/
theorem DriftInvariant.drifted_old :
    ∀ pos ∈ s.bookStore.positions, ∃ f ∈ s'.bookStore.fillsOf pos.symbol,
      pos.lastFillId = some f.fillId ∧
        (f.fillId ∈ s'.bookStore.plantedIds .positionDrift pos.symbol ∧
            1 / 100 ≤ |pos.quantity - s'.bookStore.positionAt pos.symbol f.sequence| ∨
          f.fillId ∉ s'.bookStore.plantedIds .positionDrift pos.symbol ∧
            pos.quantity = s'.bookStore.positionAt pos.symbol f.sequence) := by
  intro pos hpos
  obtain ⟨f, hf, hlast, hoff⟩ := h.drifted pos hpos
  have hne : f.fillId ≠ draws.fillId := by
    rintro heq
    exact hfill.fresh (heq ▸ List.mem_map_of_mem (BookStore.mem_fillsOf.mp hf).1)
  have hplanted : f.fillId ∈ s'.bookStore.plantedIds .positionDrift pos.symbol ↔
      f.fillId ∈ s.bookStore.plantedIds .positionDrift pos.symbol := by
    rw [hfill.planted pos.symbol, List.mem_append]
    split <;> simp [hne]
  have hat : s'.bookStore.positionAt pos.symbol f.sequence
      = s.bookStore.positionAt pos.symbol f.sequence := by
    refine BookStore.positionAt_append_of_lt hfill.fills fun hsym ↦ ?_
    rw [newFill_symbol] at hsym
    exact h.lt_newFill config tick draws f (hsym.symm ▸ hf)
  refine ⟨f, ?_, hlast, ?_⟩
  · rw [BookStore.fillsOf_append hfill.fills]
    exact List.mem_append_left _ hf
  · rw [hplanted, hat]
    exact hoff

theorem DriftInvariant.drifted_step :
    ∀ pos ∈ s'.bookStore.positions, ∃ f ∈ s'.bookStore.fillsOf pos.symbol,
      pos.lastFillId = some f.fillId ∧
        (f.fillId ∈ s'.bookStore.plantedIds .positionDrift pos.symbol ∧
            1 / 100 ≤ |pos.quantity - s'.bookStore.positionAt pos.symbol f.sequence| ∨
          f.fillId ∉ s'.bookStore.plantedIds .positionDrift pos.symbol ∧
            pos.quantity = s'.bookStore.positionAt pos.symbol f.sequence) := by
  intro pos hpos
  rw [hfill.positions, List.mem_append, Option.mem_toList] at hpos
  rcases hpos with hpos | hpos
  · exact h.drifted_old hfill pos hpos
  · obtain ⟨hsym, hlast, hqty⟩ := hfill.snapshot pos hpos
    have hnot : draws.fillId ∉ s.bookStore.plantedIds .positionDrift tick.symbol :=
      fun hmem ↦ hfill.fresh (h.mem_fills_of_planted hmem)
    refine ⟨s.newFill config draws tick, ?_, hlast, ?_⟩
    · rw [hsym, BookStore.fillsOf_append hfill.fills]
      simp
    · rw [hsym, h.positionAt_newFill hfill, hfill.planted tick.symbol]
      cases isDrift with
      | true => exact .inl ⟨by simp [newFill], by simpa using hqty⟩
      | false => exact .inr ⟨by simpa [newFill] using hnot, by simpa using hqty⟩

theorem DriftInvariant.planted_step (symbol : Str) :
    ∀ id ∈ s'.bookStore.plantedIds .positionDrift symbol,
      ∃ pos ∈ s'.bookStore.positions, pos.symbol = symbol ∧ pos.lastFillId = some id := by
  intro id hid
  rw [hfill.planted symbol, List.mem_append] at hid
  rw [hfill.positions]
  rcases hid with hid | hid
  · obtain ⟨pos, hpos, hsym, hlast⟩ := h.planted symbol id hid
    exact ⟨pos, List.mem_append_left _ hpos, hsym, hlast⟩
  · split at hid
    · rename_i hcond
      obtain ⟨pos, rfl⟩ := Option.isSome_iff_exists.mp (hfill.drift hcond.1)
      obtain ⟨hsym, hlast, -⟩ := hfill.snapshot pos rfl
      exact ⟨pos, by simp, hsym.trans hcond.2, by rw [hlast, List.mem_singleton.mp hid]⟩
    · simp at hid

theorem DriftInvariant.plantedOnce_step (symbol : Str) :
    (s'.bookStore.plantedIds .positionDrift symbol).Nodup := by
  rw [hfill.planted symbol, List.nodup_append]
  refine ⟨h.plantedOnce symbol, ?_, fun a ha b hb hab ↦ ?_⟩
  · split <;> simp
  · split at hb
    · exact hfill.fresh (List.mem_singleton.mp hb ▸ hab ▸ h.mem_fills_of_planted ha)
    · simp at hb

theorem DriftInvariant.step : DriftInvariant s' where
  ids := h.ids_step hfill
  ordered := h.ordered_step hfill
  below := h.below_step hfill
  truth := h.truth_step hfill
  snapshots := h.snapshots_step hfill
  drifted := h.drifted_step hfill
  planted := h.planted_step hfill
  plantedOnce := h.plantedOnce_step hfill

omit h hfill

/-- A fill records no snapshot, or one that is off by the drift it plants. -/
theorem filled_generateFill (s : Simulator) (config : SimulatorConfig) (tick : Tick) (draws : Draws)
    (hfresh : draws.fillId ∉ s.bookStore.fills.map Fill.fillId) :
    ∃ new isDrift,
      Filled s config tick draws new isDrift (s.generateFill config draws tick) := by
  obtain ⟨hfills, htrue, hseqs, hrest⟩ := generateFill_cases config draws tick hfresh
  have hlog := fun a (ha : (s.generateFill config draws tick).bookStore.plantedAnomalies
      = s.bookStore.plantedAnomalies ++ [a]) ↦ BookStore.plantedIds_append ha .positionDrift
  rcases hrest with ⟨hpos, hplanted⟩ | ⟨pos, hsym, hlast, hpos, hcase⟩
  · -- an unmatched fill: no snapshot, and nothing logged as a drift
    refine ⟨none, false, hfresh, hfills, htrue, hseqs, by simpa using hpos, fun symbol ↦ ?_,
      by simp, by simp⟩
    rw [hlog _ hplanted]
    simp [unmatchedAnomaly]
  · rcases hcase with ⟨hqty, hplanted⟩ | ⟨hqty, hplanted⟩
    · refine ⟨some pos, true, hfresh, hfills, htrue, hseqs, hpos, fun symbol ↦ ?_, fun p hp ↦ ?_,
        by simp⟩
      · rw [hlog _ hplanted]
        simp [driftAnomaly]
      · cases hp
        refine ⟨hsym, hlast, ?_⟩
        rw [if_pos rfl, hqty, add_sub_cancel_left]
        exact Draws.le_abs_drift draws
    · refine ⟨some pos, false, hfresh, hfills, htrue, hseqs, hpos, fun symbol ↦ ?_, fun p hp ↦ ?_,
        by simp⟩
      · rcases hplanted with hplanted | ⟨a, ha, hplanted⟩
        · simp [BookStore.plantedIds, hplanted]
        · rw [hlog _ hplanted]
          simp [ha]
      · cases hp
        exact ⟨hsym, hlast, by simpa using hqty⟩

include h in
/-- **One fill preserves the invariant**, whatever it plants. -/
theorem DriftInvariant.generateFill (config : SimulatorConfig) (tick : Tick) (draws : Draws)
    (hfresh : draws.fillId ∉ s.bookStore.fills.map Fill.fillId) :
    DriftInvariant (s.generateFill config draws tick) := by
  obtain ⟨new, isDrift, hfill⟩ := filled_generateFill s config tick draws hfresh
  exact h.step hfill

end Fill

/-! ## Runs -/

variable (config : SimulatorConfig) (maxFills maxIdleReads : Option ℤ)
  (reads : List (List (Tick × Draws)))

/-- **Every run keeps the invariant.** -/
theorem driftInvariant_run (hfresh : (reads.flatten.map fun m ↦ m.2.fillId).Nodup)
    (tickStore : TickStore) :
    DriftInvariant (run config maxFills maxIdleReads reads { tickStore, bookStore := {} }) := by
  have hevents := eventsOf_spec config maxFills maxIdleReads reads
  rw [run_eq]
  exact foldl_invariant (fun s tick h ↦ h.trackSequence tick)
    (fun s tick draws h hnew ↦ h.generateFill config tick draws hnew) _ _
    (DriftInvariant.empty tickStore) (hevents.filled.nodup hfresh) (by simp)

/-- The fill ids named by the position-drift breaks of a report. -/
def reportedDrifts (breaks : List Break) : List Str :=
  (breaks.filter fun b ↦ b.breakType = .positionDrift).filterMap Break.relatedFillId

/-- A book that satisfies the invariant, read whole, is reported on exactly. -/
theorem DriftInvariant.mem_reportedDrifts {s : Simulator} (h : DriftInvariant s)
    (ticks : TickStore) {w : ℤ} {start stop : Time}
    (hfills : ∀ f ∈ s.bookStore.fills, start - w ≤ f.timestamp ∧ f.timestamp ≤ stop + w)
    (hpositions : ∀ p ∈ s.bookStore.positions, start ≤ p.lastUpdated ∧ p.lastUpdated ≤ stop)
    (symbol id : Str) :
    id ∈ reportedDrifts (Reconciler.reconcileSymbol { tickMatchWindow := w } ticks s.bookStore
        symbol start stop) ↔
      id ∈ s.bookStore.plantedIds .positionDrift symbol := by
  have hd := h.distinctFills symbol
  have hread : ∀ f ∈ s.bookStore.fillsOf symbol,
      start - w ≤ f.timestamp ∧ f.timestamp ≤ stop + w :=
    fun f hf ↦ hfills f (BookStore.mem_fillsOf.mp hf).1
  have htotal : ∀ n, Frame.prefixTotal Fill.sequence Fill.signedQty
      (s.bookStore.readFillsDf symbol (start - w) (stop + w)) n
        = s.bookStore.positionAt symbol n := by
    intro n
    rw [BookStore.prefixTotal_readFillsDf, BookStore.omittedAt_eq_zero hread, sub_zero]
  rw [reportedDrifts, Reconciler.filter_positionDrift_reconcileSymbol]
  simp only [List.mem_filterMap, Reconciler.mem_findPositionDrift _ (hd.ids_readFillsDf _ _)
    (hd.sequences_readFillsDf _ _), htotal]
  constructor
  · rintro ⟨b, ⟨pos, hpos, f, hf, hlast, hlt, rfl⟩, hid⟩
    obtain ⟨hstored, hsym, -⟩ := BookStore.mem_readPositionsDf.mp hpos
    have hlast' : pos.lastFillId = some id := hid
    obtain ⟨g, hg, hglast, hoff⟩ := h.drifted pos hstored
    rw [hsym] at hg hoff
    have hfg : f = g := by
      obtain ⟨hfmem, hfsym, -⟩ := BookStore.mem_readFillsDf.mp hf
      refine hd.eq_of_fillId (BookStore.mem_fillsOf.mpr ⟨hfmem, hfsym⟩) hg ?_
      exact Option.some.inj (hlast.symm.trans hglast)
    subst hfg
    rcases hoff with ⟨hplanted, -⟩ | ⟨-, hqty⟩
    · rwa [← Option.some.inj (hlast.symm.trans hlast')]
    · -- a snapshot of the true position is within any tolerance
      rw [hqty, sub_self, abs_zero] at hlt
      norm_num at hlt
  · intro hid
    obtain ⟨pos, hpos, hsym, hlast⟩ := h.planted symbol id hid
    obtain ⟨f, hf, hflast, hoff⟩ := h.drifted pos hpos
    rw [hsym] at hf hoff
    have hfid : f.fillId = id := Option.some.inj (hflast.symm.trans hlast)
    rcases hoff with ⟨-, hoff⟩ | ⟨hnot, -⟩
    · obtain ⟨hstored, hfsym⟩ := BookStore.mem_fillsOf.mp hf
      refine ⟨_, ⟨pos, BookStore.mem_readPositionsDf.mpr ⟨hpos, hsym, hpositions pos hpos⟩, f,
        BookStore.mem_readFillsDf.mpr ⟨hstored, hfsym, hfills f hstored⟩, hflast, ?_, rfl⟩, hlast⟩
      -- a planted drift is ten thousand times the tolerance
      refine lt_of_lt_of_le ?_ hoff
      norm_num
    · rw [hfid] at hnot
      exact absurd hid hnot

/-- **The drift scan has precision and recall one on a run of the simulator.**  Over a window that
covers a single run from an empty book, the position-drift breaks of each symbol name exactly the
fills the run logged as drifted, each once. -/
theorem reported_drifts_are_planted (hfresh : (reads.flatten.map fun m ↦ m.2.fillId).Nodup)
    (tickStore ticks : TickStore) (w : ℤ) (start stop : Time) (symbol : Str) :
    let book := (run config maxFills maxIdleReads reads { tickStore, bookStore := {} }).bookStore
    let reported := reportedDrifts
      (Reconciler.reconcileSymbol { tickMatchWindow := w } ticks book symbol start stop)
    (∀ f ∈ book.fills, start - w ≤ f.timestamp ∧ f.timestamp ≤ stop + w) →
      (∀ p ∈ book.positions, start ≤ p.lastUpdated ∧ p.lastUpdated ≤ stop) →
        reported.Nodup ∧ reported.Perm (book.plantedIds .positionDrift symbol) := by
  intro book reported hfills hpositions
  have h := driftInvariant_run config maxFills maxIdleReads reads hfresh tickStore
  have hnodup : reported.Nodup := by
    simp only [reported, reportedDrifts, Reconciler.filter_positionDrift_reconcileSymbol]
    refine (Reconciler.relatedFillIds_sublist _ symbol _ _).nodup ?_
    exact ((Frame.sortBy_perm _ _).filterMap _).nodup_iff.mpr
      (h.snapshots.sublist (List.filter_sublist.filterMap _))
  refine ⟨hnodup, (List.perm_ext_iff_of_nodup hnodup (h.plantedOnce symbol)).mpr fun id ↦ ?_⟩
  exact h.mem_reportedDrifts ticks hfills hpositions symbol id

/-! ### One drifted fill -/

/-- Draws that trade and plant a drift. -/
def driftDraws : Draws where
  tradeRoll := 0
  quantity := 1 / 100
  quantity_bounds := by norm_num
  fillId := "f1".toList
  anomalyRoll := 0
  anomalyChoice := .positionDrift
  shift := 15
  shift_eq := .inr rfl
  driftSize := 1 / 20
  driftSize_bounds := by norm_num
  driftSign := -1
  driftSign_eq := .inr rfl
  startPick := 0
  gapLength := 1
  gapLength_bounds := by norm_num

theorem reported_drifts_of_one_drifted_fill :
    (reportedDrifts (Reconciler.reconcileSymbol {} []
      (run {} none none [[(btcTick 1 0, driftDraws)]]
        { tickStore := [], bookStore := {} }).bookStore
      "BTC-USD".toList 0 0)).Perm ["f1".toList] :=
  (reported_drifts_are_planted {} none none [[(btcTick 1 0, driftDraws)]] (by decide) [] []
    (seconds 5) 0 0 "BTC-USD".toList (by decide +kernel) (by decide +kernel)).2.trans
      (by rw [show BookStore.plantedIds _ _ _ = ["f1".toList] by decide +kernel])

end Simulator

end PostTrade
