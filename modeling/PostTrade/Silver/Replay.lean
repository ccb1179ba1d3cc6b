import PostTrade.Bronze.Landed

/-!
# Replaying a day

A day of messages seen twice: live, one after the other, and in a batch that reads them back from
bronze, regrouped by partition and by flush, in the order of the object keys, and each text once.

`batch_replays_stream` compares the two.  The batch has one row for each text, and where the texts
differ and the keys are in the order of arrival its rows are the ticks of the stream, number by
number.
-/

set_option autoImplicit false

namespace PostTrade

open Python Numbering

/-! ## Lines that normalize to ticks -/

/-- The numbers of the tick fit the columns of the schema. -/
def Tick.Fits (tick : Tick) : Prop :=
  fitsDecimal128 tick.price = true ∧ tick.size.all fitsDecimal128 = true

instance (tick : Tick) : Decidable tick.Fits := by
  unfold Tick.Fits
  infer_instance

theorem silverRow_of_fits {tick : Tick} (h : tick.Fits) (hencodable : tick.encodable = true) :
    ∃ row, silverRow tick = .ok row := by
  rw [silverRow, h.1, h.2, hencodable]
  exact ⟨_, rfl⟩

theorem mapM_silverRow_of_fits {ticks : List Tick} (h : ∀ tick ∈ ticks, tick.Fits)
    (hencodable : ∀ tick ∈ ticks, tick.encodable = true) :
    ∃ rows, ticks.mapM silverRow = .ok rows := by
  induction ticks with
  | nil => exact ⟨[], rfl⟩
  | cons tick rest ih =>
    obtain ⟨row, hrow⟩ :=
      silverRow_of_fits (h tick List.mem_cons_self) (hencodable tick List.mem_cons_self)
    obtain ⟨rows, hrows⟩ := ih (fun tick' htick' ↦ h tick' (List.mem_cons_of_mem _ htick'))
      fun tick' htick' ↦ hencodable tick' (List.mem_cons_of_mem _ htick')
    refine ⟨row :: rows, ?_⟩
    rw [List.mapM_cons, hrow, hrows]
    rfl

/-- A line that says something normalizes to a tick, whatever the clock and the counters are. -/
theorem normalizeLine_of_content {line : Str} {c : Content} (h : lineContent line = some c)
    (clock : Str → Time × Time) (sequences : Str → ℕ) :
    ∃ tick sequences', normalizeLine clock sequences line = (.ok (some tick), sequences') := by
  rw [lineContent] at h
  split at h
  · rename_i data hloads
    split at h
    · rename_i tick hok
      obtain ⟨t', heq, -⟩ := normalize_eq (Prod.ext hok rfl) sequences (clock line).1 (clock line).2
      rw [normalizeLine, hloads]
      dsimp only
      rw [heq]
      exact ⟨_, _, rfl⟩
    · cases h
  · cases h

theorem normalizeLines_of_content {lines : List Str}
    (h : ∀ line ∈ lines, (lineContent line).isSome = true) (clock : Str → Time × Time)
    (sequences : Str → ℕ) : ∃ ticks, normalizeLines clock sequences lines = .ok (ticks, 0) := by
  induction lines generalizing sequences with
  | nil => exact ⟨[], rfl⟩
  | cons line rest ih =>
    obtain ⟨c, hc⟩ := Option.isSome_iff_exists.mp (h line List.mem_cons_self)
    obtain ⟨tick, sequences', hline⟩ := normalizeLine_of_content hc clock sequences
    obtain ⟨ticks, hticks⟩ :=
      ih (fun line' hline' ↦ h line' (List.mem_cons_of_mem _ hline')) sequences'
    refine ⟨tick :: ticks, ?_⟩
    rw [normalizeLines, hline]
    dsimp only
    rw [hticks]
    rfl

/-- The numbers a line says have a place in the columns. -/
def LineFits (line : Str) : Prop :=
  ∀ c, lineContent line = some c →
    fitsDecimal128 c.price = true ∧ c.size.all fitsDecimal128 = true

/-- A tick says what one of the lines says. -/
theorem exists_line_of_tick {clock : Str → Time × Time} {sequences : Str → ℕ} {lines : List Str}
    {ticks : List Tick} {failures : ℕ}
    (h : normalizeLines clock sequences lines = .ok (ticks, failures)) {tick : Tick}
    (htick : tick ∈ ticks) :
    ∃ line ∈ lines, ∃ timed, lineContent line = some (tick.content timed) := by
  obtain ⟨line, hline, hcontent⟩ := exists_of_forall₂ (forall₂_normalizeLines h).flip htick
  exact ⟨line, List.mem_of_mem_filter hline, hcontent⟩

/-- Where the lines that say anything fit, so do their ticks. -/
theorem fits_of_normalizeLines {clock : Str → Time × Time} {sequences : Str → ℕ} {lines : List Str}
    {ticks : List Tick} {failures : ℕ} (hfits : ∀ line ∈ lines, LineFits line)
    (h : normalizeLines clock sequences lines = .ok (ticks, failures)) :
    ∀ tick ∈ ticks, tick.Fits := by
  intro tick htick
  obtain ⟨line, hline, timed, hcontent⟩ := exists_line_of_tick h htick
  exact hfits line hline _ hcontent

/-- **Lines of ticks that fit the schema** are rebuilt: one row for each text. -/
theorem rebuild_of_fits {bucket : Bucket} {m : Materialization} {lines : List Str}
    (hlines : bronzeLines bucket m.partition = .ok lines)
    (h : ∀ line ∈ lines, ∃ tick : Tick, tick.Fits ∧ TickOf line tick) :
    ∃ rows, rebuild bucket m = .ok rows ∧ List.Forall₂ RowOf (dedupLines [] lines).1 rows := by
  have hmem : ∀ line ∈ (dedupLines [] lines).1, ∃ tick : Tick, tick.Fits ∧ TickOf line tick :=
    fun line hline ↦ h line (mem_dedupLines.mp hline).1
  have hsome : ∀ line ∈ (dedupLines [] lines).1, (lineContent line).isSome = true := by
    intro line hline
    obtain ⟨tick, -, -, timed, hcontent⟩ := hmem line hline
    rw [hcontent]
    rfl
  obtain ⟨ticks, hticks⟩ := normalizeLines_of_content hsome m.clock fun _ ↦ 0
  have hcontents := forall₂_normalizeLines hticks
  rw [saying, List.filter_eq_self.mpr hsome] at hcontents
  have hfits : ∀ line ∈ (dedupLines [] lines).1, LineFits line := by
    intro line hline c hc
    obtain ⟨tick, hfits, -, timed, hcontent⟩ := hmem line hline
    obtain rfl := Option.some.inj (hcontent.symm.trans hc)
    exact hfits
  have hencodable : ∀ tick ∈ ticks, tick.encodable = true := by
    intro tick htick
    obtain ⟨line, hline, timed, hcontent⟩ := exists_line_of_tick hticks htick
    obtain ⟨tick', -, hencodable, timed', hcontent'⟩ := hmem line hline
    exact (congrArg Content.encodable (Option.some.inj (hcontent.symm.trans hcontent'))).trans
      hencodable
  obtain ⟨rows, hrows⟩ := mapM_silverRow_of_fits (fits_of_normalizeLines hfits hticks) hencodable
  refine ⟨rows, (rebuild_eq hlines hticks).trans hrows, ?_⟩
  refine (forall₂_comp hcontents (forall₂_mapM hrows)).imp ?_
  rintro line row ⟨tick, ⟨timed, hcontent⟩, hrow⟩
  exact ⟨timed, by rw [hcontent, content_silverRow hrow]⟩

/-- Lines that differ from each other are all kept. -/
theorem dedupLines_of_nodup {lines seen : List Str} (h : lines.Nodup)
    (hseen : ∀ line ∈ lines, line ∉ seen) : (dedupLines seen lines).1 = lines := by
  induction lines generalizing seen with
  | nil => rfl
  | cons line rest ih =>
    obtain ⟨hline, hrest⟩ := List.nodup_cons.mp h
    rw [dedupLines, if_neg (hseen line List.mem_cons_self)]
    show line :: (dedupLines (line :: seen) rest).1 = line :: rest
    rw [ih hrest fun line' hline' hmem ↦ ?_]
    rcases List.mem_cons.mp hmem with rfl | hmem
    · exact hline hline'
    · exact hseen line' (List.mem_cons_of_mem _ hline') hmem

/-! ## Ticks and rows -/

/-- The ticks published of a symbol. -/
def BronzeIngestor.ticksOf (s : BronzeIngestor) (x : Str) : List Tick :=
  (published s.ingestor.log).filter fun tick ↦ tick.symbol = x

/-- The row is the tick over again: it has its number, and both say what the line says. -/
structure Replays (line : Str) (tick : Tick) (row : SilverRow) : Prop where
  sequence : row.sequence = tick.sequence
  /-- The exchange times are the same where the line carries one. -/
  content : ∃ timed, lineContent line = some (tick.content timed) ∧
    row.content timed = tick.content timed

theorem Tick.timed_content (tick : Tick) (timed : Bool) :
    (tick.content timed).exchangeTimestamp.isSome = timed := by
  cases timed with
  | false => rfl
  | true => rfl

theorem SilverRow.timed_content (row : SilverRow) (timed : Bool) :
    (row.content timed).exchangeTimestamp.isSome = timed := by
  cases timed with
  | false => rfl
  | true => rfl

theorem replays_iff {line : Str} {tick : Tick} {row : SilverRow} :
    Replays line tick row ↔ row.sequence = tick.sequence ∧ TickOf line tick ∧ RowOf line row := by
  constructor
  · rintro ⟨hsequence, timed, htick, hrow⟩
    exact ⟨hsequence, ⟨(congrArg Content.encodable hrow).symm, timed, htick⟩, timed, hrow ▸ htick⟩
  · rintro ⟨hsequence, ⟨-, timed, htick⟩, timed', hrow⟩
    have hcontent : row.content timed' = tick.content timed :=
      Option.some.inj (hrow.symm.trans htick)
    -- what a line says tells whether it carries a time
    have htimed : timed' = timed := by
      rw [← row.timed_content timed', hcontent, tick.timed_content]
    exact ⟨hsequence, timed, htick, htimed ▸ hcontent⟩

/-- Ticks and rows of the same lines, with the same numbers. -/
theorem forall₂_replays {lines : List Str} {ticks : List Tick} {rows : List SilverRow}
    (hticks : List.Forall₂ TickOf lines ticks) (hrows : List.Forall₂ RowOf lines rows)
    (hsequences : rows.map SilverRow.sequence = ticks.map Tick.sequence) :
    List.Forall₂ (fun tick row ↦ ∃ line ∈ lines, Replays line tick row) ticks rows := by
  induction hticks generalizing rows with
  | nil =>
    cases hrows
    exact .nil
  | cons htick _ ih =>
    cases hrows with
    | cons hrow hrows =>
      rw [List.map_cons, List.map_cons, List.cons.injEq] at hsequences
      refine .cons ⟨_, List.mem_cons_self, replays_iff.mpr ⟨hsequences.1, htick, hrow⟩⟩ ?_
      refine (ih hrows hsequences.2).imp ?_
      rintro tick row ⟨line, hline, hreplays⟩
      exact ⟨line, List.mem_cons_of_mem _ hline, hreplays⟩

namespace Landed

variable {client : Client} {today : ℤ} {base : List Entry} {x : Str} {t : Time}
  {s : BronzeIngestor} (h : Landed client today base x t s)

include h

/-- The ticks of the symbol are those of its messages. -/
theorem forall₂_ticksOf : List.Forall₂ (fun line tick ↦ tick.symbol = x ∧ TickOf line tick)
    ((s.landingsOf x).map Landing.rawText) (s.ticksOf x) := by
  have hfiltered : List.Forall₂ (fun l tick ↦ tick.symbol = l.symbol ∧ TickOf l.rawText tick)
      (s.landingsOf x) (s.ticksOf x) := by
    refine List.rel_filter (fun l tick hl ↦ ?_) h.ticks
    show decide (l.symbol = x) = true ↔ decide (tick.symbol = x) = true
    rw [hl.1]
  have hsymbol : ∀ l ∈ s.landingsOf x, l.symbol = x := fun l hl ↦
    of_decide_eq_true (List.mem_filter.mp hl).2
  refine List.forall₂_map_left_iff.mpr
    (((List.forall₂_and_left ..).mpr ⟨hsymbol, hfiltered⟩).imp ?_)
  rintro l tick ⟨hx, htick, hline⟩
  exact ⟨htick.trans hx, hline⟩

/-- The ticks of the symbol are numbered from one on. -/
theorem sequences_ticksOf : (s.ticksOf x).map Tick.sequence = oneTo (s.ticksOf x).length := by
  have hnumbered := h.inStep.numbered x
  rwa [← length_numbers Tick.sequence, numbers, List.length_map] at hnumbered

/-- A line that is listed is the line of a tick of the symbol. -/
theorem exists_tick {line : Str} (hline : line ∈ s.linesOf x t) :
    ∃ tick ∈ s.ticksOf x, tick.symbol = x ∧ TickOf line tick :=
  exists_of_forall₂ h.forall₂_ticksOf (h.linesOf_perm.mem_iff.mp hline)

end Landed

/-- **A batch reproduces the live stream up to order and repetitions.**  Let messages of one day be
handled, each accepted by `normalize`, handed over as the text that was read, and printed on one
line; let everything be flushed at the end; and let the ticks of a symbol fit the schema.  The ticks
published of the symbol are those of its messages, one for each in the order of arrival.  The batch
over the symbol and the date then completes, whatever the flushes in between were.  It reads the
same messages, in the order of the object keys, and its rows are those of the distinct ones among
them, in that order and numbered from one on.

If the messages of the symbol differ from each other, their clock does not go back, and the objects
of each partition were put in the order of their keys, then the rows are the ticks, one by one. -/
theorem batch_replays_stream {client : Client} {printed : Json → Str} {symbols : List Str}
    {stream : TickStream} {flushMaxLines : ℤ} {flushMaxSeconds : ℚ} {occurrences : List Occurrence}
    {today : ℤ} {s : BronzeIngestor} {m : Materialization} {t : Time}
    (hregular : ∀ o ∈ occurrences, BronzeIngestor.Regular today o)
    (hrun : BronzeIngestor.runToEnd client printed
      (BronzeIngestor.init symbols stream flushMaxLines flushMaxSeconds) occurrences = some s)
    (hhex : client.DrawsHex s.writer.putCalls) (ht : t / Datetime.day = today)
    (hdate : m.date = Datetime.dateText t)
    (hapart : ∀ l ∈ s.landings, ¬ GoesOn m.partition l.symbol)
    (hfits : ∀ tick ∈ s.ticksOf m.symbol, tick.Fits) (outputDir : List Str) (lake : SilverLake) :
    let texts := (s.landingsOf m.symbol).map Landing.rawText
    let lines := s.linesOf m.symbol t
    s.ingestor.stream.entries =
        stream.entries ++ (published s.ingestor.log).map (fun tick ↦ ⟨some tick⟩) ∧
      List.Forall₂ TickOf texts (s.ticksOf m.symbol) ∧
      lines.Perm texts ∧
      ∃ result rows, transformSymbolDate (Bucket.ofPuts s.writer.puts) outputDir lake m =
          (.ok result, clearPartition outputDir m.partition lake ++ newFiles outputDir m rows) ∧
        List.Forall₂ RowOf (dedupLines [] lines).1 rows ∧
        rows.map SilverRow.sequence = oneTo rows.length ∧
        (texts.Nodup → Ordered m.symbol s →
          List.Forall₂ (fun tick row ↦ ∃ line ∈ texts, Replays line tick row)
            (s.ticksOf m.symbol) rows) := by
  intro texts lines
  have hpartition : m.partition = (m.symbol, Datetime.dateText t) := Prod.ext rfl hdate
  rw [hpartition] at hapart
  have hlanded : Landed client today stream.entries m.symbol t s :=
    landed_of_run hregular hrun hhex ht hapart
  have hlines : bronzeLines (Bucket.ofPuts s.writer.puts) m.partition = .ok lines := by
    rw [hpartition]
    exact hlanded.bronzeLines_eq
  have hticks : List.Forall₂ TickOf texts (s.ticksOf m.symbol) :=
    hlanded.forall₂_ticksOf.imp fun _ _ hl ↦ hl.2
  obtain ⟨rows, hrebuild, hrows⟩ := rebuild_of_fits hlines fun line hline ↦ by
    obtain ⟨tick, htick, -, hline⟩ := hlanded.exists_tick hline
    exact ⟨tick, hfits tick htick, hline⟩
  obtain ⟨result, htransform⟩ := transformSymbolDate_of_rebuild hrebuild outputDir lake
  have hsymbol : ∀ row ∈ rows, row.symbol = m.symbol := by
    intro row hrow
    obtain ⟨line, hline, timed, hcontent⟩ := exists_of_forall₂ hrows.flip hrow
    obtain ⟨tick, -, hx, -, timed', hcontent'⟩ := hlanded.exists_tick (mem_dedupLines.mp hline).1
    have hsame := congrArg Content.symbol (Option.some.inj (hcontent.symm.trans hcontent'))
    exact hsame.trans hx
  have hsequences := (rebuild_ok hrebuild).1.map_number hsymbol
  refine ⟨hlanded.inStep.entries, hticks, hlanded.linesOf_perm, result, rows, htransform, hrows,
    hsequences, fun hnodup hordered ↦ ?_⟩
  have horder : lines = texts := hlanded.linesOf_eq hordered
  rw [horder, dedupLines_of_nodup hnodup fun _ _ ↦ List.not_mem_nil] at hrows
  refine forall₂_replays hticks hrows ?_
  rw [hsequences, hlanded.sequences_ticksOf, ← hticks.length_eq, ← hrows.length_eq]

/-! ### Days with one or two messages -/

/-- A client whose calls succeed, and draw names of one digit each. -/
def naming (digits : String) : Client where
  uuid n := List.replicate 32 (digits.toList.getD n '0')
  raises _ := false

/-- The text of a trade. -/
def tradeText (symbol price : String) : Str :=
  "\x7b\"type\":\"match\",\"product_id\":\"".toList ++ symbol.toList ++ "\",\"price\":\"".toList ++
    price.toList ++ "\",\"time\":\"2026-01-01T12:00:00Z\"\x7d".toList

/-- A trade arrives on the first day of the epoch. -/
def trade (symbol price : String) : Occurrence :=
  .message { raw := .text (tradeText symbol price), exchangeNow := 0, ingestNow := 0 } 0 0

/-- A day of the ingestor, with objects of so many lines. -/
def dayOf (stream : TickStream) (digits : String) (flushMaxLines : ℤ)
    (occurrences : List Occurrence) : Option BronzeIngestor :=
  BronzeIngestor.runToEnd (naming digits) (fun _ ↦ [])
    (BronzeIngestor.init ["BTC-USD".toList] stream flushMaxLines 10) occurrences

/-- The batch over the first day of the epoch. -/
def firstDay : Materialization where
  symbol := "BTC-USD".toList
  date := Datetime.dateText 0
  clock := fun _ ↦ (0, 0)
  uuid := "0".toList

/-- The rows of the batch over what has landed. -/
def batchOf (s : BronzeIngestor) : List SilverRow :=
  SilverLake.rows (transformSymbolDate (Bucket.ofPuts s.writer.puts) [] [] firstDay).2

/-- The numbers and the prices that the stream and the batch have of a day. -/
def bothPaths (day : Option BronzeIngestor) : Option (List (ℤ × ℚ) × List (ℤ × ℚ)) :=
  day.map fun s ↦
    ((s.ticksOf firstDay.symbol).map fun tick ↦ (tick.sequence, tick.price),
      (batchOf s).map fun row ↦ (row.sequence, row.price))

theorem regular_trade {symbol price : String}
    (h : BronzeIngestor.accepts (.text (tradeText symbol price)) = true)
    (hone : OneLine (tradeText symbol price)) : BronzeIngestor.Regular 0 (trade symbol price) :=
  BronzeIngestor.regular_of_text rfl h hone rfl

theorem batch_replays_stream_two_objects :
    ∃ s rows, dayOf {} "01" 1 [trade "BTC-USD" "100", trade "BTC-USD" "101"] = some s ∧
      batchOf s = rows ∧ s.ticksOf firstDay.symbol ≠ [] ∧
        List.Forall₂ (fun tick row ↦
          ∃ line ∈ (s.landingsOf firstDay.symbol).map Landing.rawText, Replays line tick row)
          (s.ticksOf firstDay.symbol) rows := by
  have hday : ∃ s ∈ dayOf {} "01" 1 [trade "BTC-USD" "100", trade "BTC-USD" "101"],
      s.writer.putCalls = 2 ∧ (∀ l ∈ s.landings, ¬ GoesOn firstDay.partition l.symbol) ∧
      (∀ tick ∈ s.ticksOf firstDay.symbol, tick.Fits) ∧ s.ticksOf firstDay.symbol ≠ [] ∧
      ((s.landingsOf firstDay.symbol).map Landing.rawText).Nodup ∧
      ((s.landingsOf firstDay.symbol).Pairwise fun l l' ↦ l.receivedAt ≤ l'.receivedAt) ∧
      s.writer.puts.Pairwise fun put put' ↦
        put.partition = put'.partition → put.object.key < put'.object.key := by
    decide +kernel
  obtain ⟨s, hrun, hcalls, hapart, hfits, hticks, hnodup, hclock, hnames⟩ := hday
  have hdistinct : ∀ n < 2, ∀ n' < 2, (naming "01").uuid n = (naming "01").uuid n' → n = n' := by
    decide +kernel
  have hdigits : ∀ n < 2, ((naming "01").uuid n).all (· ∈ "0123456789abcdef".toList) = true := by
    decide +kernel
  have hhex : (naming "01").DrawsHex s.writer.putCalls := by
    rw [hcalls]
    exact ⟨fun n hn n' hn' heq ↦ hdistinct n hn n' hn' heq,
      fun n hn c hc ↦ of_decide_eq_true (List.all_eq_true.mp (hdigits n hn) c hc)⟩
  have hregular : ∀ o ∈ [trade "BTC-USD" "100", trade "BTC-USD" "101"],
      BronzeIngestor.Regular 0 o := by
    simp only [List.forall_mem_cons]
    exact ⟨regular_trade (by decide +kernel) (by decide +kernel),
      regular_trade (by decide +kernel) (by decide +kernel), fun o ho ↦ nomatch ho⟩
  obtain ⟨-, -, -, result, rows, htransform, -, -, hreplays⟩ :=
    batch_replays_stream (m := firstDay) (t := 0) hregular hrun hhex rfl rfl hapart hfits [] []
  refine ⟨s, rows, hrun, ?_, hticks, hreplays hnodup ⟨hclock, hnames⟩⟩
  rw [batchOf, htransform]
  exact rows_newFiles [] firstDay rows

/-- A repeated message is one row; objects of one hour whose names sort the other way give the
other order, and other numbers with it; a price that is too fine ends the batch; and a symbol that
goes on with the date has its ticks in the batch of the other one. -/
theorem batch_differs_from_stream :
    (∀ o ∈ [trade "BTC-USD" "100", trade "BTC-USD" "101", trade "BTC-USD" "0.000000001",
      trade "BTC-USD/date=1970-01-01" "100"], BronzeIngestor.Regular 0 o) ∧
    bothPaths (dayOf {} "01" 200 [trade "BTC-USD" "100", trade "BTC-USD" "100"]) =
      some ([(1, 100), (2, 100)], [(1, 100)]) ∧
    bothPaths (dayOf {} "10" 1 [trade "BTC-USD" "100", trade "BTC-USD" "101"]) =
      some ([(1, 100), (2, 101)], [(1, 101), (2, 100)]) ∧
    bothPaths (dayOf {} "01" 200 [trade "BTC-USD" "0.000000001"]) =
      some ([(1, 1 / 1000000000)], []) ∧
    bothPaths (dayOf {} "01" 200 [trade "BTC-USD/date=1970-01-01" "100"]) =
      some ([], [(1, 100)]) := by
  refine ⟨?_, ?_, ?_, ?_, ?_⟩
  · simp only [List.forall_mem_cons]
    exact ⟨regular_trade (by decide +kernel) (by decide +kernel),
      regular_trade (by decide +kernel) (by decide +kernel),
      regular_trade (by decide +kernel) (by decide +kernel),
      regular_trade (by decide +kernel) (by decide +kernel), fun o ho ↦ nomatch ho⟩
  · decide +kernel
  · decide +kernel
  · decide +kernel
  · decide +kernel

end PostTrade
