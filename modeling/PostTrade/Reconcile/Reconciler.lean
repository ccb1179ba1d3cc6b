import PostTrade.Storage
import PostTrade.Lib.Gaps

/-!
# The reconciler

`reconcile/reconciler.py`: three scans over what storage returns for a window, each yielding a
list of breaks.  `reconcileSymbol` reads fills and ticks from the window widened by
`tickMatchWindow` on both sides, and positions from the window itself; the scans then only see
those rows.

A scan is a function of the data frames it is handed, as in the source, so that it can be
reasoned about with no store around it.  The rows it reports on are visited in the order of the
frame, and each scan is a `filterMap` of one row's (or one pair of neighbours') verdict.
-/

set_option autoImplicit false

namespace PostTrade

/-- The settings of a `Reconciler`, with the defaults of its constructor. -/
structure Reconciler where
  tickMatchWindow : ℤ := seconds 5
  positionDriftTolerance : ℚ := 1 / 1000000

namespace Reconciler

variable (r : Reconciler)

/-! ## Unmatched fills -/

/-- The break reported for a fill with no tick near it. -/
def unmatchedBreak (symbol : Str) (fill : Fill) : Break where
  breakType := .unmatchedFill
  symbol := symbol
  detectedAt := fill.timestamp
  detail := [.text "fill ", .str fill.fillId, .text " at ", .time fill.timestamp,
    .text " has no observed tick within ", .span r.tickMatchWindow]
  relatedFillId := some fill.fillId

/-- `(tick_times - fill_time).abs().min()`, or nothing when there are no ticks. -/
def nearestDelta (fillTime : Time) (tickTimes : List Time) : Option ℤ :=
  (tickTimes.map fun t ↦ |t - fillTime|).min?

/-- `_find_unmatched_fills`. -/
def findUnmatchedFills (symbol : Str) (fillsDf : List Fill) (ticksDf : List TickRow) :
    List Break :=
  fillsDf.filterMap fun fill ↦
    match nearestDelta fill.timestamp (ticksDf.map TickRow.time) with
    | none => some (r.unmatchedBreak symbol fill)
    | some d => if d > r.tickMatchWindow then some (r.unmatchedBreak symbol fill) else none

/-! ## Position drift -/

/-- The break reported for a position row whose quantity is not the expected one. -/
def driftBreak (symbol : Str) (pos : Position) (expected : ℚ) : Break where
  breakType := .positionDrift
  symbol := symbol
  detectedAt := pos.lastUpdated
  detail := [.text "recorded position ", .decimal pos.quantity,
    .text " differs from fills-derived position ", .decimal expected, .text " by ",
    .decimal |pos.quantity - expected|, .text " (fill ", .str (pos.lastFillId.getD []), .text ")"]
  relatedFillId := pos.lastFillId

/-- `expected_by_fill`: the running position after each fill, in execution order. -/
def expectedByFill (fillsDf : List Fill) : List (Str × ℚ) :=
  -- sorted by `sequence`, not by time, which the unmatched-fill anomaly corrupts
  let fillsSorted := Frame.sortBy Fill.sequence fillsDf
  (fillsSorted.map Fill.fillId).zip (Frame.cumsum (fillsSorted.map Fill.signedQty))

/-- The verdict of the drift scan on one position row. -/
def driftVerdict (symbol : Str) (expected : List (Str × ℚ)) (pos : Position) : Option Break :=
  -- a row with no `last_fill_id` looks up nothing, like one whose fill is not in the frame
  match pos.lastFillId.bind (Frame.Dict.get expected) with
  | none => none
  | some e =>
    if |pos.quantity - e| > r.positionDriftTolerance then some (driftBreak symbol pos e) else none

/-- `_find_position_drift`. -/
def findPositionDrift (symbol : Str) (fillsDf : List Fill) (positionsDf : List Position) :
    List Break :=
  if fillsDf = [] ∨ positionsDf = [] then []
  else positionsDf.filterMap (r.driftVerdict symbol (expectedByFill fillsDf))

/-! ## Sequence gaps -/

/-- The break reported for two neighbouring sequences with others missing between them. -/
def gapBreak (symbol : Str) (prev curr : ℤ) (detectedAt : Time) : Break where
  breakType := .sequenceGap
  symbol := symbol
  detectedAt := detectedAt
  detail := [.text "sequence gap for ", .str symbol, .text ": ", .int prev, .text " -> ",
    .int curr, .text " (missing ", .int (curr - prev - 1), .text " tick(s))"]
  relatedSequence := some (prev + 1)

/-- `seq_time`: the time of each sequence, the last row winning among equals. -/
def seqTime (ticksDf : List TickRow) : List (ℤ × Time) :=
  (Frame.sortBy TickRow.sequence ticksDf).map fun t ↦ (t.sequence, t.time)

/-- `sorted(seq_time.keys())`: the distinct sequences, in increasing order. -/
def seqs (ticksDf : List TickRow) : List ℤ :=
  Frame.sortBy id ((seqTime ticksDf).map Prod.fst).dedup

/-- The verdict of the gap scan on two neighbours. -/
def gapVerdict (symbol : Str) (times : List (ℤ × Time)) (p : ℤ × ℤ) : Option Break :=
  if p.2 - p.1 > 1 then (Frame.Dict.get times p.2).map (gapBreak symbol p.1 p.2) else none

/-- `_find_sequence_gaps`. -/
def findSequenceGaps (symbol : Str) (ticksDf : List TickRow) : List Break :=
  if ticksDf = [] then []
  else (Gaps.pairwise (seqs ticksDf)).filterMap (gapVerdict symbol (seqTime ticksDf))

/-! ## Reconciling a window -/

/-- `reconcile_symbol`. -/
def reconcileSymbol (ticks : TickStore) (book : BookStore) (symbol : Str) (start stop : Time) :
    List Break :=
  let fillsDf := book.readFillsDf symbol (start - r.tickMatchWindow) (stop + r.tickMatchWindow)
  let ticksDf := ticks.readTicksDf symbol (start - r.tickMatchWindow) (stop + r.tickMatchWindow)
  let positionsDf := book.readPositionsDf symbol start stop
  r.findUnmatchedFills symbol fillsDf ticksDf ++ r.findPositionDrift symbol fillsDf positionsDf
    ++ findSequenceGaps symbol ticksDf

/-- `reconcile_all`. -/
def reconcileAll (ticks : TickStore) (book : BookStore) (symbols : List Str)
    (start stop : Time) : List Break :=
  symbols.flatMap fun symbol ↦ r.reconcileSymbol ticks book symbol start stop

/-! ## Which scan a break comes from -/

theorem breakType_of_mem_unmatchedFills {symbol : Str} {fillsDf : List Fill}
    {ticksDf : List TickRow} {b : Break} (h : b ∈ r.findUnmatchedFills symbol fillsDf ticksDf) :
    b.breakType = .unmatchedFill := by
  obtain ⟨fill, -, hb⟩ := List.mem_filterMap.mp h
  revert hb
  split
  · rintro ⟨⟩
    rfl
  · split
    · rintro ⟨⟩
      rfl
    · rintro ⟨⟩

theorem breakType_of_mem_positionDrift {symbol : Str} {fillsDf : List Fill}
    {positionsDf : List Position} {b : Break}
    (h : b ∈ r.findPositionDrift symbol fillsDf positionsDf) : b.breakType = .positionDrift := by
  rw [findPositionDrift] at h
  split at h
  · simp at h
  · obtain ⟨pos, -, hb⟩ := List.mem_filterMap.mp h
    revert hb
    rw [driftVerdict]
    split
    · rintro ⟨⟩
    · split
      · rintro ⟨⟩
        rfl
      · rintro ⟨⟩

theorem breakType_of_mem_sequenceGaps {symbol : Str} {ticksDf : List TickRow} {b : Break}
    (h : b ∈ findSequenceGaps symbol ticksDf) : b.breakType = .sequenceGap := by
  rw [findSequenceGaps] at h
  split at h
  · simp at h
  · obtain ⟨p, -, hb⟩ := List.mem_filterMap.mp h
    rw [gapVerdict] at hb
    split at hb
    · obtain ⟨t, -, rfl⟩ := Option.map_eq_some_iff.mp hb
      rfl
    · cases hb

/-- Of breaks of one type, a filter by type keeps all or none. -/
theorem filter_breakType {breaks : List Break} {type : BreakType}
    (h : ∀ b ∈ breaks, b.breakType = type) (wanted : BreakType) :
    (breaks.filter fun b ↦ b.breakType = wanted) = if type = wanted then breaks else [] := by
  split
  · rename_i heq
    exact List.filter_eq_self.mpr fun b hb ↦ decide_eq_true ((h b hb).trans heq)
  · rename_i hne
    refine List.filter_eq_nil_iff.mpr fun b hb ↦ ?_
    rw [h b hb, decide_eq_true_eq]
    exact hne

section Filter

variable (ticks : TickStore) (book : BookStore) (symbol : Str) (start stop : Time)

/-- The breaks of one type are the output of one scan. -/
theorem filter_reconcileSymbol (wanted : BreakType) :
    ((r.reconcileSymbol ticks book symbol start stop).filter fun b ↦ b.breakType = wanted) =
      (if .unmatchedFill = wanted then
        r.findUnmatchedFills symbol
          (book.readFillsDf symbol (start - r.tickMatchWindow) (stop + r.tickMatchWindow))
          (ticks.readTicksDf symbol (start - r.tickMatchWindow) (stop + r.tickMatchWindow))
      else []) ++
      (if .positionDrift = wanted then
        r.findPositionDrift symbol
          (book.readFillsDf symbol (start - r.tickMatchWindow) (stop + r.tickMatchWindow))
          (book.readPositionsDf symbol start stop)
      else []) ++
      if .sequenceGap = wanted then
        findSequenceGaps symbol
          (ticks.readTicksDf symbol (start - r.tickMatchWindow) (stop + r.tickMatchWindow))
      else [] := by
  rw [reconcileSymbol, List.filter_append, List.filter_append,
    filter_breakType fun _ ↦ r.breakType_of_mem_unmatchedFills,
    filter_breakType fun _ ↦ r.breakType_of_mem_positionDrift,
    filter_breakType fun _ ↦ breakType_of_mem_sequenceGaps]

theorem filter_unmatchedFill_reconcileSymbol :
    ((r.reconcileSymbol ticks book symbol start stop).filter fun b ↦
        b.breakType = .unmatchedFill)
      = r.findUnmatchedFills symbol
          (book.readFillsDf symbol (start - r.tickMatchWindow) (stop + r.tickMatchWindow))
          (ticks.readTicksDf symbol (start - r.tickMatchWindow) (stop + r.tickMatchWindow)) := by
  simp [filter_reconcileSymbol]

theorem filter_positionDrift_reconcileSymbol :
    ((r.reconcileSymbol ticks book symbol start stop).filter fun b ↦
        b.breakType = .positionDrift)
      = r.findPositionDrift symbol
          (book.readFillsDf symbol (start - r.tickMatchWindow) (stop + r.tickMatchWindow))
          (book.readPositionsDf symbol start stop) := by
  simp [filter_reconcileSymbol]

theorem filter_sequenceGap_reconcileSymbol :
    ((r.reconcileSymbol ticks book symbol start stop).filter fun b ↦
        b.breakType = .sequenceGap)
      = findSequenceGaps symbol
          (ticks.readTicksDf symbol (start - r.tickMatchWindow) (stop + r.tickMatchWindow)) := by
  simp [filter_reconcileSymbol]

end Filter

end Reconciler

end PostTrade
