import PostTrade.Lib.Window
import PostTrade.Silver.Content
import PostTrade.Silver.NaturalKey

/-!
# The contiguity test of the gold layer

`models/staging/stg_ticks.sql`, `models/marts/fct_ticks.sql` and
`tests/assert_sequence_contiguous_per_symbol_hour.sql`: the test returns a row wherever the
sequences of a symbol jump within one hour of exchange time.

The transform numbers the ticks of a symbol in the order in which it reads their lines, which is
that of the objects they were received into.  `contiguity_test_passes_iff` says when the two orders
get along, so that complete data returns no row: when the places that the lines of an hour have
among those of their symbols leave nothing out.  With lines of one symbol, or if gold tells the
symbols apart, this is to say that no symbol comes back to an hour it has left.

The table has times with a time zone, so their date and hour are those of the session:
`localTime` is the local time of an instant.
-/

set_option autoImplicit false

namespace PostTrade

open Python Numbering

/-! ## The models -/

/-- A row of `stg_ticks`: a row of silver, with the date (in days since 1970) and the hour of its
exchange time. -/
structure StgTick extends SilverRow where
  tickDate : ℤ
  tickHour : ℤ

/-- `cast(exchange_timestamp as date)` and `date_part('hour', exchange_timestamp)`. -/
def dateAndHour (localTime : Time → Time) (exchangeTimestamp : Time) : ℤ × ℤ :=
  (localTime exchangeTimestamp / Datetime.day,
    localTime exchangeTimestamp % Datetime.day / (3600 * 1000000))

/-- `stg_ticks`. -/
def stgTicks (localTime : Time → Time) (silver : List SilverRow) : List StgTick :=
  silver.map fun row ↦ { row with
    tickDate := (dateAndHour localTime row.exchangeTimestamp).1
    tickHour := (dateAndHour localTime row.exchangeTimestamp).2 }

/-- A row of `fct_ticks`. -/
structure FctTick where
  tickId : Str
  symbol : Str
  sequence : ℤ
  price : ℚ
  size : Option ℚ
  side : Option Str
  channel : Str
  exchangeTimestamp : Time
  ingestTimestamp : Time
  tickDate : ℤ
  tickHour : ℤ
  /-- `datediff('microsecond', exchange_timestamp, ingest_timestamp)`. -/
  ingestLatencyUs : ℤ

/-- `fct_ticks`. -/
def fctTicks (stg : List StgTick) : List FctTick :=
  stg.map fun t ↦ {
    tickId := t.symbol ++ '-' :: t.sequence.repr.toList
    symbol := t.symbol
    sequence := t.sequence
    price := t.price
    size := t.size
    side := t.side
    channel := t.channel
    exchangeTimestamp := t.exchangeTimestamp
    ingestTimestamp := t.ingestTimestamp
    tickDate := t.tickDate
    tickHour := t.tickHour
    ingestLatencyUs := t.ingestTimestamp - t.exchangeTimestamp }

/-- A row the test returns. -/
structure MissingRun where
  symbol : Str
  tickDate : ℤ
  tickHour : ℤ
  prevSequence : ℤ
  sequence : ℤ
  missingCount : ℤ
  deriving DecidableEq

/-- What the test partitions by. -/
def FctTick.hour (t : FctTick) : Str × ℤ × ℤ := (t.symbol, t.tickDate, t.tickHour)

/-- `assert_sequence_contiguous_per_symbol_hour`. -/
def assertSequenceContiguousPerSymbolHour (fct : List FctTick) : List MissingRun :=
  (Window.lag FctTick.hour FctTick.sequence fct).filterMap fun (t, prevSequence) ↦
    match prevSequence with
    | none => none
    | some prevSequence =>
      if t.sequence - prevSequence > 1 then
        some {
          symbol := t.symbol
          tickDate := t.tickDate
          tickHour := t.tickHour
          prevSequence
          sequence := t.sequence
          missingCount := t.sequence - prevSequence - 1 }
      else none

/-- The test over the gold of a lake. -/
def contiguityTest (readSymbol : List Str → Str → Str) (localTime : Time → Time)
    (lake : SilverLake) : List MissingRun :=
  assertSequenceContiguousPerSymbolHour
    (fctTicks (stgTicks localTime (lake.readParquet readSymbol).rows))

/-! ## The hours of rows and lines -/

/-- The symbol and the hour of a row of silver. -/
def SilverRow.hour (localTime : Time → Time) (row : SilverRow) : Str × ℤ × ℤ :=
  (row.symbol, dateAndHour localTime row.exchangeTimestamp)

/-- The symbol and the hour a line will be of: that of the time it says, or of the clock. -/
def lineHour (localTime : Time → Time) (clock : Str → Time × Time) (line : Str) :
    Option (Str × ℤ × ℤ) :=
  (lineContent line).map fun c ↦
    (c.symbol, dateAndHour localTime (c.exchangeTimestamp.getD (clock line).1))

/-- The symbols and hours of the lines, in the order in which they are read, each text once. -/
def lineHours (localTime : Time → Time) (clock : Str → Time × Time) (lines : List Str) :
    List (Str × ℤ × ℤ) :=
  (dedupLines [] lines).1.filterMap (lineHour localTime clock)

/-- In the order in which the lines are read no symbol comes back to an hour it has left. -/
def HoursInTurn (localTime : Time → Time) (clock : Str → Time × Time) (lines : List Str) : Prop :=
  InTurn Prod.fst (lineHours localTime clock lines)

/-- Let each line have its place among those of its symbol: the places of the lines of an hour,
those of symbols that are read as one taken together, leave none out between two of them. -/
def HoursUnbroken (read : Str → Str) (localTime : Time → Time) (clock : Str → Time × Time)
    (lines : List Str) : Prop :=
  ∀ (symbol : Str) (hour : ℤ × ℤ), {n | ∃ written, read written = symbol ∧
    ((written, hour), n) ∈ places Prod.fst [] (lineHours localTime clock lines)}.OrdConnected

/-- The sequences of every symbol and hour are consecutive. -/
def ContiguousPerHour (localTime : Time → Time) (rows : List SilverRow) : Prop :=
  ∀ g : Str × ℤ × ℤ, {n | ∃ row ∈ rows, row.hour localTime = g ∧ row.sequence = n}.OrdConnected

/-- The hour of a line is that of its row. -/
theorem filterMap_lineHour {localTime : Time → Time} {clock : Str → Time × Time}
    {lines : List Str} {ticks : List Tick}
    (h : List.Forall₂ (fun line tick ↦ ∃ before after,
      normalizeLine clock before line = (.ok (some tick), after)) (saying lines) ticks) :
    lines.filterMap (lineHour localTime clock) = ticks.map fun tick ↦
      (tick.symbol, dateAndHour localTime tick.exchangeTimestamp) := by
  induction lines generalizing ticks with
  | nil =>
    cases h
    rfl
  | cons line rest ih =>
    rw [saying_cons] at h
    split at h
    · obtain ⟨tick, ticks', ⟨before, after, htick⟩, hrest, rfl⟩ := List.forall₂_cons_left_iff.mp h
      obtain ⟨c, hc, hsymbol, htime⟩ := exchangeTimestamp_normalizeLine htick
      have hhour : lineHour localTime clock line =
          some (tick.symbol, dateAndHour localTime tick.exchangeTimestamp) := by
        rw [lineHour, hc, hsymbol, htime]
        rfl
      rw [List.filterMap_cons_some hhour, ih hrest, List.map_cons]
    · rename_i hnone
      have hhour : lineHour localTime clock line = none := by
        simpa [lineHour] using hnone
      rw [List.filterMap_cons_none hhour, ih h]

theorem hour_silverRow {tick : Tick} {row : SilverRow} (h : silverRow tick = .ok row)
    (localTime : Time → Time) :
    row.hour localTime = (tick.symbol, dateAndHour localTime tick.exchangeTimestamp) := by
  obtain ⟨rfl, -⟩ := silverRow_ok h
  rfl

/-- The hours of the rows of a run are those of its lines. -/
theorem hours_rebuild {bucket : Bucket} {m : Materialization} {lines : List Str}
    {rows : List SilverRow} (hlines : bronzeLines bucket m.partition = .ok lines)
    (h : rebuild bucket m = .ok rows) (localTime : Time → Time) :
    rows.map (SilverRow.hour localTime) = lineHours localTime m.clock lines := by
  obtain ⟨lines', hlines', h⟩ := bind_eq_ok.mp h
  rw [hlines] at hlines'
  cases hlines'
  obtain ⟨⟨ticks, failures⟩, hticks, hrows⟩ := bind_eq_ok.mp h
  rw [lineHours, filterMap_lineHour (forall₂_normalizeLine hticks)]
  refine List.forall₂_eq_eq_eq ▸ List.forall₂_map_left_iff.mpr (List.forall₂_map_right_iff.mpr ?_)
  exact (forall₂_mapM hrows).flip.imp fun row tick hrow ↦ hour_silverRow hrow localTime

/-! ## What the test finds -/

/-- The test passes where `lag` jumps nowhere. -/
theorem assertSequenceContiguous_eq_nil_iff {fct : List FctTick} :
    assertSequenceContiguousPerSymbolHour fct = [] ↔
      ∀ t p, (t, some p) ∈ Window.lag FctTick.hour FctTick.sequence fct → t.sequence - p ≤ 1 := by
  rw [assertSequenceContiguousPerSymbolHour, List.filterMap_eq_nil_iff]
  constructor
  · intro h t p hmem
    simpa using h (t, some p) hmem
  · rintro h ⟨t, prevSequence⟩ hmem
    cases prevSequence with
    | none => rfl
    | some p => simpa using h t p hmem

/-- **What the test is for**: it passes where the sequences of every symbol and hour are
consecutive. -/
theorem assertSequenceContiguous_fctTicks {localTime : Time → Time} {rows : List SilverRow} :
    assertSequenceContiguousPerSymbolHour (fctTicks (stgTicks localTime rows)) = [] ↔
      ContiguousPerHour localTime rows := by
  have hcarried : ∀ g n, Window.Carried FctTick.hour FctTick.sequence
      (fctTicks (stgTicks localTime rows)) g n ↔
        ∃ row ∈ rows, row.hour localTime = g ∧ row.sequence = n := by
    intro g n
    simp only [Window.Carried, fctTicks, stgTicks, List.mem_map, exists_exists_and_eq_and]
    exact .rfl
  rw [assertSequenceContiguous_eq_nil_iff, Window.lag_le_one_iff, ContiguousPerHour]
  refine forall_congr' fun g ↦ ?_
  rw [Gaps.ordConnected_iff]
  exact forall_congr' fun m ↦ not_congr (Gaps.Between.congr (hcarried g) m)

theorem contiguousPerHour_iff {rows : List SilverRow}
    (h : Numbered SilverRow.symbol SilverRow.sequence rows) (localTime : Time → Time) :
    ContiguousPerHour localTime rows ↔
      InTurn Prod.fst (rows.map (SilverRow.hour localTime)) := by
  rw [ContiguousPerHour, h.inTurn_iff (SilverRow.hour localTime) Prod.fst fun _ ↦ rfl]
  exact forall_congr' fun g ↦ Gaps.ordConnected_iff

section ReadAs

variable {rows : List SilverRow} {read : Str → Str}

/-- Where symbols are still told apart, the rows are numbered as before. -/
theorem numbered_readAs (h : Numbered SilverRow.symbol SilverRow.sequence rows)
    (hread : Set.InjOn read (keysOf SilverRow.symbol rows)) :
    Numbered SilverRow.symbol SilverRow.sequence (rows.map (SilverRow.readAs read)) := by
  refine numbered_map_iff.mp ?_
  rw [List.map_map]
  exact numbered_map_iff.mpr (h.of_injOn hread)

/-- And their hours are in turn as before. -/
theorem inTurn_readAs_iff (hread : Set.InjOn read (keysOf SilverRow.symbol rows))
    (localTime : Time → Time) :
    InTurn Prod.fst ((rows.map (SilverRow.readAs read)).map (SilverRow.hour localTime)) ↔
      InTurn Prod.fst (rows.map (SilverRow.hour localTime)) := by
  have hhours : (rows.map (SilverRow.readAs read)).map (SilverRow.hour localTime) =
      (rows.map (SilverRow.hour localTime)).map (Prod.map read id) := by
    rw [List.map_map, List.map_map]
    rfl
  rw [hhours, inTurn_map_read]
  rintro _ ⟨_, hg, rfl⟩ _ ⟨_, hg', rfl⟩
  obtain ⟨row, hrow, rfl⟩ := List.mem_map.mp hg
  obtain ⟨row', hrow', rfl⟩ := List.mem_map.mp hg'
  exact hread ⟨row, hrow, rfl⟩ ⟨row', hrow', rfl⟩

/-- The rows of every symbol and hour, as they are read, have the places of their lines. -/
theorem contiguousPerHour_readAs_iff (h : Numbered SilverRow.symbol SilverRow.sequence rows)
    (localTime : Time → Time) :
    ContiguousPerHour localTime (rows.map (SilverRow.readAs read)) ↔
      ∀ (symbol : Str) (hour : ℤ × ℤ), {n | ∃ written, read written = symbol ∧
        ((written, hour), n) ∈
          places Prod.fst [] (rows.map (SilverRow.hour localTime))}.OrdConnected := by
  rw [ContiguousPerHour, Prod.forall]
  refine forall₂_congr fun symbol hour ↦ ?_
  have hplaces := h.map_eq_places [] (SilverRow.hour localTime) Prod.fst fun _ ↦ rfl
  rw [List.map_nil] at hplaces
  rw [← hplaces]
  refine iff_of_eq (congrArg Set.OrdConnected (Set.ext fun n ↦ ?_))
  constructor
  · rintro ⟨_, hmem, hhour, hn⟩
    obtain ⟨row, hrow, rfl⟩ := List.mem_map.mp hmem
    obtain ⟨hsymbol, rfl⟩ := Prod.mk.inj hhour
    exact ⟨row.symbol, hsymbol, List.mem_map.mpr ⟨row, hrow, Prod.ext rfl hn⟩⟩
  · rintro ⟨written, hread, hmem⟩
    obtain ⟨row, hrow, heq⟩ := List.mem_map.mp hmem
    obtain ⟨hhour, hn⟩ := Prod.mk.inj heq
    obtain ⟨rfl, rfl⟩ := Prod.mk.inj hhour
    exact ⟨row.readAs read, List.mem_map_of_mem hrow, Prod.ext hread rfl, hn⟩

end ReadAs

/-- **When the test passes complete data.**  The rows of a run have it return no row, which is to
say the sequences of every symbol and hour are consecutive, exactly when the hours of the lines of
the partition are unbroken.  If no two symbols of the partition are read as one, they are where
no symbol comes back to an hour it has left. -/
theorem contiguity_test_passes_iff {bucket : Bucket} {outputDir : List Str} {m : Materialization}
    {lines : List Str} {result : SilverTransformResult} {lake : SilverLake}
    (hlines : bronzeLines bucket m.partition = .ok lines)
    (hrun : transformSymbolDate bucket outputDir [] m = (.ok result, lake))
    (readSymbol : List Str → Str → Str) (localTime : Time → Time) :
    (contiguityTest readSymbol localTime lake = [] ↔
      HoursUnbroken (readFiled readSymbol outputDir m.partition) localTime m.clock lines) ∧
    (ContiguousPerHour localTime (lake.readParquet readSymbol).rows ↔
      HoursUnbroken (readFiled readSymbol outputDir m.partition) localTime m.clock lines) ∧
    (ToldApart (readFiled readSymbol outputDir) bucket m.partition →
      (HoursUnbroken (readFiled readSymbol outputDir m.partition) localTime m.clock lines ↔
        HoursInTurn localTime m.clock lines)) := by
  obtain ⟨rows, hrows, rfl⟩ := transformSymbolDate_ok hrun
  have hread : (SilverLake.readParquet readSymbol (clearPartition outputDir m.partition [] ++
      newFiles outputDir m rows)).rows =
        rows.map (SilverRow.readAs (readFiled readSymbol outputDir m.partition)) :=
    rows_readParquet_newFiles readSymbol outputDir m rows
  have hnumbered := (rebuild_ok hrows).1
  have hunbroken : ContiguousPerHour localTime
      (rows.map (SilverRow.readAs (readFiled readSymbol outputDir m.partition))) ↔
        HoursUnbroken (readFiled readSymbol outputDir m.partition) localTime m.clock lines := by
    rw [contiguousPerHour_readAs_iff hnumbered, hours_rebuild hlines hrows]
    exact .rfl
  refine ⟨?_, ?_, fun htold ↦ ?_⟩
  · rw [contiguityTest, assertSequenceContiguous_fctTicks, hread, hunbroken]
  · rw [hread, hunbroken]
  · rw [ToldApart, setOf_publishes_eq hrows] at htold
    rw [← hunbroken, contiguousPerHour_iff (numbered_readAs hnumbered htold),
      inTurn_readAs_iff htold, hours_rebuild hlines hrows, HoursInTurn]

/-! ### Three trades around one o'clock -/

/-- The line of a trade of BTC-USD at a time of the first of January. -/
def tradeLineAt (time : String) : Str :=
  "\x7b\"type\":\"match\",\"product_id\":\"BTC-USD\",\"price\":\"100\"".toList
    ++ ",\"time\":\"2026-01-01T".toList ++ time.toList ++ "Z\"\x7d".toList

/-- A bucket with such trades, each given by the name of its object after `hour=` and its time. -/
def tradesReceived (trades : List (String × String)) : Bucket :=
  trades.foldl (fun b trade ↦ b.put {
    key := partitionPrefix btcFirst.1 btcFirst.2 ++ "hour=".toList ++ trade.1.toList
      ++ ".ndjson".toList
    body := some (tradeLineAt trade.2 ++ ['\n']) }) .empty

/-- The run over such a bucket, into an empty lake. -/
def runOver (trades : List (String × String)) :
    Except TransformError SilverTransformResult × SilverLake :=
  transformSymbolDate (tradesReceived trades) ["silver".toList] [] (runFor btcFirst)

/-- The second trade is received in a later hour than it is executed in. -/
def inOrder : List (String × String) :=
  [("12/0", "12:59:58"), ("13/0", "12:59:59"), ("13/1", "13:00:00")]

/-- And so is the last one here, after a trade that is executed in that later hour. -/
def outOfOrder : List (String × String) :=
  [("12/0", "12:59:58"), ("13/0", "13:00:00"), ("13/1", "12:59:59")]

/-- Trades that arrive in the order of their times pass the test. -/
theorem contiguity_test_passes_inOrder :
    contiguityTest hiveSymbol id (runOver inOrder).2 = [] ∧
      ContiguousPerHour id (SilverLake.readParquet hiveSymbol (runOver inOrder).2).rows := by
  have hlines : bronzeLines (tradesReceived inOrder) (runFor btcFirst).partition =
      .ok (inOrder.map fun trade ↦ tradeLineAt trade.2) := by
    decide +kernel
  have hreturns : ∀ ran : Except TransformError SilverTransformResult × SilverLake,
      ran.1.isOk = true → ∃ result, ran = (.ok result, ran.2) := by
    rintro ⟨_ | result, lake⟩ hok
    · cases hok
    · exact ⟨result, rfl⟩
  have hsymbols : ∀ line ∈ inOrder.map fun trade ↦ tradeLineAt trade.2,
      acceptedSymbol line = some btcFirst.1 := by
    decide +kernel
  have htold : ToldApart (readFiled hiveSymbol ["silver".toList]) (tradesReceived inOrder)
      (runFor btcFirst).partition := by
    have hone : ∀ symbol, Publishes (tradesReceived inOrder) (runFor btcFirst).partition symbol →
        symbol = btcFirst.1 := by
      rintro symbol ⟨lines, hlines', line, hline, haccepted⟩
      rw [hlines] at hlines'
      cases hlines'
      exact Option.some.inj (haccepted.symm.trans (hsymbols line hline))
    exact fun symbol hsymbol symbol' hsymbol' _ ↦ (hone _ hsymbol).trans (hone _ hsymbol').symm
  have hturn : HoursInTurn id (runFor btcFirst).clock
      (inOrder.map fun trade ↦ tradeLineAt trade.2) := by
    unfold HoursInTurn
    decide +kernel
  obtain ⟨result, hrun⟩ := hreturns (runOver inOrder) (by decide +kernel)
  obtain ⟨htest, hcontiguous, hiff⟩ := contiguity_test_passes_iff hlines hrun hiveSymbol id
  exact ⟨htest.mpr ((hiff htold).mpr hturn), hcontiguous.mpr ((hiff htold).mpr hturn)⟩

/-- A trade of the hour before, received late: all three lines have a row, and the test returns one
for the number that went to the other hour. -/
theorem contiguity_test_false_alarm :
    (runOver outOfOrder).1.isOk = true ∧
    (∀ trade ∈ outOfOrder, (lineContent (tradeLineAt trade.2)).isSome = true) ∧
    (runOver outOfOrder).2.rows.map SilverRow.sequence = [1, 2, 3] ∧
    contiguityTest hiveSymbol id (runOver outOfOrder).2 = [{
      symbol := btcFirst.1
      tickDate := 20454
      tickHour := 12
      prevSequence := 1
      sequence := 3
      missingCount := 1 }] := by
  decide +kernel

end PostTrade
