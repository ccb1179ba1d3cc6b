import PostTrade.DuckDB
import PostTrade.Reconcile.SequenceGaps

/-!
# Reconciling over either store

`reconcile_symbol` reads the ticks from whichever store is configured and the fills from Postgres.
The scans read two columns of the ticks, the sequences and the times, and it is the times that tell
the stores apart: those of Timescale have a time zone, like the fills', and those of DuckDB have
none.  A difference between the two kinds is a `TypeError`, and no time of one kind is equal to one
of the other.

`interchangeable_iff` says for which calls, which book and which window a caller cannot tell the
stores apart.
-/

set_option autoImplicit false

namespace PostTrade

open Python

/-- Whether times have a time zone. -/
inductive Zone
  | aware
  | naive
  deriving DecidableEq

/-- A frame of ticks as the scans read it: the sequence and the time of every row, and whether the
column of times has a time zone. -/
structure TicksDf where
  rows : List (ℤ × Time)
  zone : Zone

/-- A break as it is returned, and whether its `detected_at` has a time zone. -/
structure ZonedBreak where
  flagged : Break
  zone : Zone
  deriving DecidableEq

/-- The exceptions of a scan. -/
inductive ReconcileError
  | typeError
  deriving DecidableEq

namespace Reconciler

variable (r : Reconciler)

/-! ## The scans over a frame from either store -/

/-- `(tick_times - fill_time).abs().min()` where there are ticks; the time of a fill has a time
zone. -/
def nearestDeltaIn (ticksDf : TicksDf) (fillTime : Time) : Except ReconcileError (Option ℤ) :=
  if ticksDf.rows = [] then .ok none
  else
    match ticksDf.zone with
    | .aware => .ok (nearestDelta fillTime (ticksDf.rows.map Prod.snd))
    | .naive => .error .typeError

/-- The verdict on one fill. -/
def unmatchedVerdictIn (symbol : Str) (ticksDf : TicksDf) (fill : Fill) :
    Except ReconcileError (Option ZonedBreak) :=
  (nearestDeltaIn ticksDf fill.timestamp).map fun
    | none => some ⟨r.unmatchedBreak symbol fill, .aware⟩
    | some d =>
      if d > r.tickMatchWindow then some ⟨r.unmatchedBreak symbol fill, .aware⟩ else none

/-- `_find_unmatched_fills`. -/
def findUnmatchedFillsIn (symbol : Str) (fillsDf : List Fill) (ticksDf : TicksDf) :
    Except ReconcileError (List ZonedBreak) :=
  (fillsDf.mapM (r.unmatchedVerdictIn symbol ticksDf)).map List.reduceOption

/-- `_find_sequence_gaps`: a break is detected at the time of a tick. -/
def findSequenceGapsIn (symbol : Str) (ticksDf : TicksDf) : List ZonedBreak :=
  if ticksDf.rows = [] then []
  else
    let seqTime := Frame.sortBy Prod.fst ticksDf.rows
    let seqs := Frame.sortBy id (seqTime.map Prod.fst).dedup
    ((Gaps.pairwise seqs).filterMap (gapVerdict symbol seqTime)).map fun b ↦ ⟨b, ticksDf.zone⟩

/-- `reconcile_symbol`, with the ticks of the widened window. -/
def reconcileSymbolIn (ticksDf : TicksDf) (book : BookStore) (symbol : Str) (start stop : Time) :
    Except ReconcileError (List ZonedBreak) := do
  let fillsDf := book.readFillsDf symbol (start - r.tickMatchWindow) (stop + r.tickMatchWindow)
  let positionsDf := book.readPositionsDf symbol start stop
  let unmatched ← r.findUnmatchedFillsIn symbol fillsDf ticksDf
  return unmatched ++ (r.findPositionDrift symbol fillsDf positionsDf).map (⟨·, .aware⟩)
    ++ findSequenceGapsIn symbol ticksDf

/-- The two columns of a frame of Timescale. -/
def columns (ticksDf : List TickRow) : List (ℤ × Time) := ticksDf.map fun t ↦ (t.sequence, t.time)

/-- `reconcile_symbol` over Timescale. -/
def reconcileTimescale (ticks : TickStore) (book : BookStore) (symbol : Str)
    (start stop : Time) : Except ReconcileError (List ZonedBreak) :=
  let ticksDf := ticks.readTicksDf symbol (start - r.tickMatchWindow) (stop + r.tickMatchWindow)
  r.reconcileSymbolIn ⟨columns ticksDf, .aware⟩ book symbol start stop

/-- `reconcile_symbol` over DuckDB. -/
def reconcileDuckDB (ticks : DuckDBTickStore) (book : BookStore) (symbol : Str)
    (start stop : Time) : Except ReconcileError (List ZonedBreak) :=
  let ticksDf := ticks.readTicksDf symbol (start - r.tickMatchWindow) (stop + r.tickMatchWindow)
  r.reconcileSymbolIn ⟨ticksDf.map fun t ↦ (t.sequence, t.time), .naive⟩ book symbol start stop

/-! ## What the scans of either frame have in common -/

/-- The gap scan reads the two columns only. -/
theorem findSequenceGapsIn_eq (symbol : Str) (ticksDf : List TickRow) (zone : Zone) :
    findSequenceGapsIn symbol ⟨columns ticksDf, zone⟩ =
      (findSequenceGaps symbol ticksDf).map (⟨·, zone⟩) := by
  have hseqTime : Frame.sortBy Prod.fst (columns ticksDf) = seqTime ticksDf :=
    (Frame.map_sortBy _ Prod.fst ticksDf).symm
  have hnil : columns ticksDf = [] ↔ ticksDf = [] := List.map_eq_nil_iff
  simp only [findSequenceGapsIn, findSequenceGaps, hseqTime, hnil, seqs]
  split
  · rfl
  · rfl

/-- Where no element raises, neither does a loop over them. -/
theorem mapM_eq_ok {α β ε : Type*} {f : α → Except ε β} {g : α → β} {l : List α}
    (h : ∀ a ∈ l, f a = .ok (g a)) : l.mapM f = .ok (l.map g) := by
  induction l with
  | nil => rfl
  | cons a rest ih =>
    rw [List.mapM_cons, h a List.mem_cons_self, ih fun b hb ↦ h b (List.mem_cons_of_mem _ hb)]
    rfl

/-- What the fill scan does over either frame: it raises where there is a fill and a tick, and the
times of the ticks have no time zone. -/
theorem findUnmatchedFillsIn_eq (symbol : Str) (fillsDf : List Fill) (ticksDf : List TickRow)
    (zone : Zone) : r.findUnmatchedFillsIn symbol fillsDf ⟨columns ticksDf, zone⟩ =
      if zone = .naive ∧ fillsDf ≠ [] ∧ ticksDf ≠ [] then .error .typeError
      else .ok ((r.findUnmatchedFills symbol fillsDf ticksDf).map (⟨·, .aware⟩)) := by
  by_cases hraises : zone = .naive ∧ fillsDf ≠ [] ∧ ticksDf ≠ []
  · rw [if_pos hraises]
    obtain ⟨rfl, hfills, hticks⟩ := hraises
    obtain ⟨fill, rest, rfl⟩ := List.exists_cons_of_ne_nil hfills
    rw [findUnmatchedFillsIn, List.mapM_cons, unmatchedVerdictIn, nearestDeltaIn, if_neg (by
      simpa [columns] using hticks)]
    rfl
  · rw [if_neg hraises]
    have hdelta : ∀ fill ∈ fillsDf, nearestDeltaIn ⟨columns ticksDf, zone⟩ fill.timestamp =
        .ok (nearestDelta fill.timestamp (ticksDf.map TickRow.time)) := by
      intro fill hfill
      have htimes : (columns ticksDf).map Prod.snd = ticksDf.map TickRow.time := by
        simp [columns]
      rw [nearestDeltaIn]
      by_cases hticks : ticksDf = []
      · simp [hticks, columns, nearestDelta]
      · rw [if_neg (by simpa [columns] using hticks), htimes]
        cases zone with
        | aware => rfl
        | naive => exact absurd ⟨rfl, List.ne_nil_of_mem hfill, hticks⟩ hraises
    rw [findUnmatchedFillsIn, mapM_eq_ok fun fill hfill ↦ by
      rw [unmatchedVerdictIn, hdelta fill hfill, Except.map]]
    rw [Except.map, findUnmatchedFills, List.map_filterMap, List.reduceOption, List.filterMap_map]
    refine congrArg Except.ok (List.filterMap_congr fun fill hfill ↦ ?_)
    rw [Function.comp_apply, id_eq]
    cases nearestDelta fill.timestamp (ticksDf.map TickRow.time) with
    | none => rfl
    | some d =>
      dsimp only
      split
      · rfl
      · rfl

section Window

variable (book : BookStore) (symbol : Str) (start stop : Time)

/-- Reconciling with the ticks of either store. -/
theorem reconcileSymbolIn_eq (ticksDf : List TickRow) (zone : Zone) :
    r.reconcileSymbolIn ⟨columns ticksDf, zone⟩ book symbol start stop =
      let fillsDf := book.readFillsDf symbol (start - r.tickMatchWindow) (stop + r.tickMatchWindow)
      if zone = .naive ∧ fillsDf ≠ [] ∧ ticksDf ≠ [] then .error .typeError
      else .ok ((r.findUnmatchedFills symbol fillsDf ticksDf).map (⟨·, .aware⟩) ++
        (r.findPositionDrift symbol fillsDf (book.readPositionsDf symbol start stop)).map
          (⟨·, .aware⟩) ++ (findSequenceGaps symbol ticksDf).map (⟨·, zone⟩)) := by
  dsimp only
  rw [reconcileSymbolIn, findUnmatchedFillsIn_eq, findSequenceGapsIn_eq]
  split
  · rfl
  · rfl

/-- **Over Timescale no break is without a time zone**, and they are those of `reconcileSymbol`. -/
theorem reconcileTimescale_eq (ticks : TickStore) :
    r.reconcileTimescale ticks book symbol start stop =
      .ok ((r.reconcileSymbol ticks book symbol start stop).map (⟨·, .aware⟩)) := by
  rw [reconcileTimescale, reconcileSymbolIn_eq, reconcileSymbol, List.map_append, List.map_append]
  refine if_neg ?_
  rintro ⟨hnaive, -⟩
  cases hnaive

/-! ## When the stores are interchangeable -/

variable (calls : List StoreCall)

/-- Reconciling the window reads the tick. -/
def ReadsTick (tick : Tick) : Prop :=
  (∃ worker, (tick, worker) ∈ StoredTicks.after calls) ∧ tick.symbol = symbol ∧
    start - r.tickMatchWindow ≤ tick.exchangeTimestamp ∧
      tick.exchangeTimestamp ≤ stop + r.tickMatchWindow

/-- Reconciling the window reads the fill. -/
def ReadsFill (fill : Fill) : Prop :=
  fill ∈ book.fills ∧ fill.symbol = symbol ∧ start - r.tickMatchWindow ≤ fill.timestamp ∧
    fill.timestamp ≤ stop + r.tickMatchWindow

/-- A number that is a binary64 value. -/
def IsFloat (q : ℚ) : Prop := Float64.ofRat q = .finite q

/-- The prices and sizes of a tick are there in either store as they were written. -/
def ReadsBack : Prop :=
  ∀ symbol start stop,
    ((TickStore.after calls).readTicksDf symbol start stop).map
        (fun t ↦ (Decimal.finite t.price, t.size.map Decimal.finite)) =
      ((StoredTicks.after calls).between symbol start stop).map
        (fun w ↦ (Decimal.finite w.1.price, w.1.size.map Decimal.finite)) ∧
    ((DuckDBTickStore.after calls).readTicksDf symbol start stop).map
        (fun t ↦ (t.price, t.size)) =
      ((StoredTicks.after calls).between symbol start stop).map
        (fun w ↦ (Decimal.finite w.1.price, w.1.size.map Decimal.finite))

/-- After the calls the two stores are the same to a caller: reconciling over either returns the
same breaks, and prices and sizes are read back from both. -/
def Interchangeable : Prop :=
  (∃ breaks, r.reconcileTimescale (TickStore.after calls) book symbol start stop = .ok breaks ∧
    r.reconcileDuckDB (DuckDBTickStore.after calls) book symbol start stop = .ok breaks) ∧
  ReadsBack calls

/-- **What is read back**: everything, if all prices and sizes in the store are binary64 values. -/
theorem readsBack_iff : ReadsBack calls ↔ ∀ tick worker,
    (tick, worker) ∈ StoredTicks.after calls →
      IsFloat tick.price ∧ ∀ size ∈ tick.size, IsFloat size := by
  have hcells : ∀ tick : Tick,
      (Float64.ofRat tick.price, tick.size.map Float64.ofRat) =
        (Decimal.finite tick.price, tick.size.map Decimal.finite) ↔
      IsFloat tick.price ∧ ∀ size ∈ tick.size, IsFloat size := by
    intro tick
    rw [Prod.mk.injEq, IsFloat]
    cases tick.size with
    | none => simp
    | some size => simp [IsFloat]
  simp only [ReadsBack, timescale_after, duckDB_after, readTicksDf_rows, readTicksDf_duckDBRows]
  simp only [StoredTicks.rows, StoredTicks.duckDBRows, List.map_map, List.map_inj_left]
  constructor
  · intro h tick worker hmem
    refine (hcells tick).mp ((h tick.symbol tick.exchangeTimestamp tick.exchangeTimestamp).2
      (tick, worker) ?_)
    simpa using hmem
  · intro h symbol start stop
    refine ⟨fun w _ ↦ rfl, fun w hw ↦ (hcells w.1).mpr (h w.1 w.2 ?_)⟩
    exact (mem_between.mp hw).1

/-- The ticks that reconciling the window reads, as rows of Timescale. -/
def readRows : List TickRow :=
  ((StoredTicks.after calls).between symbol (start - r.tickMatchWindow)
    (stop + r.tickMatchWindow)).rows

theorem reconcileTimescale_readRows :
    r.reconcileTimescale (TickStore.after calls) book symbol start stop =
      r.reconcileSymbolIn ⟨columns (r.readRows symbol start stop calls), .aware⟩ book symbol
        start stop := by
  rw [reconcileTimescale, timescale_after, readTicksDf_rows, readRows]

theorem reconcileDuckDB_eq :
    r.reconcileDuckDB (DuckDBTickStore.after calls) book symbol start stop =
      r.reconcileSymbolIn ⟨columns (r.readRows symbol start stop calls), .naive⟩ book symbol
        start stop := by
  rw [reconcileDuckDB, duckDB_after, readTicksDf_duckDBRows, readRows, columns]
  simp only [StoredTicks.rows, StoredTicks.duckDBRows, List.map_map]
  rfl

theorem mem_readRows {t : TickRow} : t ∈ r.readRows symbol start stop calls ↔
    ∃ tick worker, TickRow.ofTick tick worker = t ∧ (tick, worker) ∈ StoredTicks.after calls ∧
      tick.symbol = symbol ∧ start - r.tickMatchWindow ≤ tick.exchangeTimestamp ∧
        tick.exchangeTimestamp ≤ stop + r.tickMatchWindow := by
  simp [readRows, StoredTicks.rows, and_comm]

/-- The sequences read. -/
theorem carried_readRows (x : ℤ) : Carried (r.readRows symbol start stop calls) x ↔
    ∃ tick, r.ReadsTick symbol start stop calls tick ∧ tick.sequence = x := by
  simp only [Carried, mem_readRows, ReadsTick]
  constructor
  · rintro ⟨_, ⟨tick, worker, rfl, hmem, hin⟩, hx⟩
    exact ⟨tick, ⟨⟨worker, hmem⟩, hin⟩, hx⟩
  · rintro ⟨tick, ⟨⟨worker, hmem⟩, hin⟩, hx⟩
    exact ⟨_, ⟨tick, worker, rfl, hmem, hin⟩, hx⟩

theorem readRows_eq_nil_iff : r.readRows symbol start stop calls = [] ↔
    ∀ tick, ¬ r.ReadsTick symbol start stop calls tick := by
  rw [List.eq_nil_iff_forall_not_mem]
  constructor
  · rintro h tick ⟨⟨worker, hmem⟩, hin⟩
    exact h _ ((r.mem_readRows symbol start stop calls).mpr ⟨tick, worker, rfl, hmem, hin⟩)
  · intro h t ht
    obtain ⟨tick, worker, -, hmem, hin⟩ := (r.mem_readRows symbol start stop calls).mp ht
    exact h tick ⟨⟨worker, hmem⟩, hin⟩

theorem readFillsDf_eq_nil_iff : book.readFillsDf symbol (start - r.tickMatchWindow)
      (stop + r.tickMatchWindow) = [] ↔ ∀ fill, ¬ r.ReadsFill book symbol start stop fill := by
  simp [List.eq_nil_iff_forall_not_mem, ReadsFill]

/-- The ticks read leave no sequence out where the scan reports no gap. -/
theorem findSequenceGaps_readRows_eq_nil_iff :
    findSequenceGaps symbol (r.readRows symbol start stop calls) = [] ↔
      ∀ m, ¬ Gaps.Between (fun x ↦ ∃ tick, r.ReadsTick symbol start stop calls tick ∧
        tick.sequence = x) m := by
  rw [findSequenceGaps_eq, List.map_eq_nil_iff, Gaps.gaps_eq_nil_iff (seqs_pairwise_le _)]
  refine forall_congr' fun m ↦ not_congr (Gaps.Between.congr (fun x ↦ ?_) m)
  rw [mem_seqs, carried_readRows]

/-- Ticks with time zones and without are reconciled alike when one of the two sides of the join is
empty, and no gap is reported. -/
theorem sameBreaks_iff (ticksDf : List TickRow) :
    (∃ breaks,
      r.reconcileSymbolIn ⟨columns ticksDf, .aware⟩ book symbol start stop = .ok breaks ∧
      r.reconcileSymbolIn ⟨columns ticksDf, .naive⟩ book symbol start stop = .ok breaks) ↔
    (ticksDf = [] ∨
      book.readFillsDf symbol (start - r.tickMatchWindow) (stop + r.tickMatchWindow) = []) ∧
    findSequenceGaps symbol ticksDf = [] := by
  rw [reconcileSymbolIn_eq, reconcileSymbolIn_eq]
  dsimp only
  generalize book.readFillsDf symbol (start - r.tickMatchWindow) (stop + r.tickMatchWindow) =
    fillsDf
  rw [if_neg (by rintro ⟨hnaive, -⟩; cases hnaive)]
  by_cases hraises : fillsDf ≠ [] ∧ ticksDf ≠ []
  · rw [if_pos ⟨rfl, hraises⟩]
    refine iff_of_false ?_ ?_
    · rintro ⟨breaks, -, h⟩
      cases h
    · rintro ⟨hnil | hnil, -⟩
      · exact hraises.2 hnil
      · exact hraises.1 hnil
  · rw [if_neg fun h ↦ hraises h.2]
    have hnone : ticksDf = [] ∨ fillsDf = [] := by
      rwa [not_and_or, not_not, not_not, or_comm] at hraises
    rw [and_iff_right hnone]
    constructor
    · rintro ⟨breaks, htimescale, hduckDB⟩
      -- the two lists end in the same breaks, detected at times of two kinds
      have hsame := List.append_cancel_left (Except.ok.inj (htimescale.trans hduckDB.symm))
      cases hscan : findSequenceGaps symbol ticksDf with
      | nil => rfl
      | cons b rest =>
        rw [hscan, List.map_cons, List.map_cons, List.cons.injEq, ZonedBreak.mk.injEq] at hsame
        cases hsame.1.2
    · intro hscan
      rw [hscan]
      exact ⟨_, rfl, rfl⟩

/-- **When the two tick stores are interchangeable**: when there are no ticks or no fills in the
widened window, the ticks in it leave no sequence out, and all prices and sizes in the store are
binary64 values. -/
theorem interchangeable_iff : r.Interchangeable book symbol start stop calls ↔
    ((∀ tick, ¬ r.ReadsTick symbol start stop calls tick) ∨
      ∀ fill, ¬ r.ReadsFill book symbol start stop fill) ∧
    (∀ m, ¬ Gaps.Between (fun x ↦ ∃ tick, r.ReadsTick symbol start stop calls tick ∧
      tick.sequence = x) m) ∧
    ∀ tick worker, (tick, worker) ∈ StoredTicks.after calls →
      IsFloat tick.price ∧ ∀ size ∈ tick.size, IsFloat size := by
  rw [Interchangeable, readsBack_iff, ← and_assoc, reconcileTimescale_readRows, reconcileDuckDB_eq,
    sameBreaks_iff, readRows_eq_nil_iff, readFillsDf_eq_nil_iff,
    findSequenceGaps_readRows_eq_nil_iff]

end Window

/-! ### One tick and one fill -/

/-- A tick of BTC-USD, at a price that is a binary64 value. -/
def oneTick : List StoreCall :=
  [.writeTick {
    symbol := "BTC-USD".toList
    sequence := 1
    price := 100
    exchange := .coinbase
    channel := "matches".toList
    exchangeTimestamp := seconds 30
    ingestTimestamp := seconds 30 } none]

/-- A fill of BTC-USD, a second later. -/
def oneFill : BookStore where
  fills := [{
    fillId := "f1".toList
    orderId := "o1".toList
    symbol := "BTC-USD".toList
    sequence := 1
    price := 100
    quantity := 1
    side := .buy
    timestamp := seconds 31 }]

/-- One tick and a fill next to it: there is nothing to report over Timescale, and a `TypeError`
over DuckDB. -/
theorem one_tick_one_fill_not_interchangeable :
    reconcileTimescale {} (TickStore.after oneTick) oneFill "BTC-USD".toList 0 (seconds 60) =
      .ok [] ∧
    reconcileDuckDB {} (DuckDBTickStore.after oneTick) oneFill "BTC-USD".toList 0 (seconds 60) =
      .error .typeError ∧
    ¬ Interchangeable {} oneFill "BTC-USD".toList 0 (seconds 60) oneTick := by
  have hraised : reconcileDuckDB {} (DuckDBTickStore.after oneTick) oneFill "BTC-USD".toList 0
      (seconds 60) = .error .typeError := by
    decide +kernel
  refine ⟨by decide +kernel, hraised, ?_⟩
  rintro ⟨⟨breaks, -, hbreaks⟩, -⟩
  exact nomatch hraised.symm.trans hbreaks

end Reconciler

end PostTrade
