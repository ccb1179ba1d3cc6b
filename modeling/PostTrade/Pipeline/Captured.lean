import PostTrade.Gold.BatchBackfill
import PostTrade.Silver.Replay

/-!
# From the feed to silver

Bronze ingestors run one after the other, each over whatever arrives, with uploads that fail and
exceptions that end it, and what they put lands in the bucket while the orchestrations go on.

What a process was handed over and had put is in bronze, and what it still held when it ended is
not (`stored_append_buffered`).  `captured_rebuilt` says that after a backfill this is what silver
consists of: each partition has one row for each text that is in bronze for its symbol and its date
and says anything, whatever the runs, the sensor and the objects did before, and there is nothing
else.
-/

set_option autoImplicit false

namespace PostTrade

open Python Numbering

/-! ## A process -/

namespace BronzeIngestor

variable {client : Client} {printed : Json → Str}

/-- `main`: the last flush is done however the run has ended. -/
def main (client : Client) (printed : Json → Str) (s : BronzeIngestor)
    (occurrences : List Occurrence) : BronzeIngestor :=
  let s := (s.run client printed occurrences).2
  { s with writer := (s.writer.flushAll client).2 }

/-- What a process leaves that has ended, or was killed on the way. -/
def LeftBehind (printed : Json → Str) (s : BronzeIngestor) : Prop :=
  ∃ client symbols stream flushMaxLines flushMaxSeconds occurrences,
    s = (init symbols stream flushMaxLines flushMaxSeconds).main client printed occurrences ∨
      s = ((init symbols stream flushMaxLines flushMaxSeconds).run client printed occurrences).2

/-- The texts handed over for a partition are in its objects or in its buffer. -/
structure HandedOver (s : BronzeIngestor) : Prop where
  sound : s.writer.Sound
  account : ∀ partition, s.writer.account partition =
    (s.landings.filter fun l ↦ l.partition = partition).map Landing.rawText

theorem handedOver_init (symbols : List Str) (stream : TickStream) (flushMaxLines : ℤ)
    (flushMaxSeconds : ℚ) :
    (init symbols stream flushMaxLines flushMaxSeconds).HandedOver where
  sound := BronzeWriter.sound_empty flushMaxLines flushMaxSeconds
  account _ := rfl

/-- A flush of what is due, or of everything. -/
theorem HandedOver.call {s : BronzeIngestor} (h : s.HandedOver) {c : BronzeWriter.Call}
    (hc : ∀ partition, c.appended partition = []) :
    HandedOver { s with writer := (s.writer.call client c).2 } := by
  obtain ⟨haccount, hsound⟩ := BronzeWriter.call_spec client c s.writer
  refine ⟨hsound h.sound, fun partition ↦ ?_⟩
  rw [haccount, hc, List.append_nil, h.account]

theorem HandedOver.message {s : BronzeIngestor} (h : s.HandedOver) (a : Arrival)
    (receivedAt : Time) (now : ℚ) :
    (s.handleMessage client printed a receivedAt now).2.HandedOver := by
  rw [handleMessage]
  split
  · exact ⟨h.sound, h.account⟩
  · rename_i symbol rawText _
    obtain ⟨haccount, hsound⟩ := BronzeWriter.call_spec client
      (.append (symbolText printed symbol) rawText receivedAt now) s.writer
    refine ⟨hsound h.sound, fun partition ↦ (haccount partition).trans ?_⟩
    rw [h.account, List.filter_append, List.map_append]
    by_cases hpartition : partitionKey (symbolText printed symbol) receivedAt = partition
    · simp [BronzeWriter.Call.appended, Landing.partition, hpartition]
    · simp [BronzeWriter.Call.appended, Landing.partition, hpartition]

theorem HandedOver.run {s : BronzeIngestor} (h : s.HandedOver) (occurrences : List Occurrence) :
    (s.run client printed occurrences).2.HandedOver := by
  induction occurrences generalizing s with
  | nil => exact h
  | cons o rest ih =>
    cases o with
    | message a receivedAt now =>
      have hmessage : (s.handleMessage client printed a receivedAt now).2.HandedOver :=
        h.message a receivedAt now
      rw [BronzeIngestor.run]
      split
      · rename_i hhandle
        rwa [hhandle] at hmessage
      · rename_i hhandle
        rw [hhandle] at hmessage
        exact ih hmessage
    | flushDue now => exact ih (h.call (c := .flushDue now) fun _ ↦ rfl)

theorem LeftBehind.handedOver {s : BronzeIngestor} (h : LeftBehind printed s) :
    s.HandedOver := by
  obtain ⟨client, symbols, stream, flushMaxLines, flushMaxSeconds, occurrences, rfl | rfl⟩ := h
  · exact ((handedOver_init symbols stream flushMaxLines flushMaxSeconds).run occurrences).call
      (c := .flushAll) fun _ ↦ rfl
  · exact (handedOver_init symbols stream flushMaxLines flushMaxSeconds).run occurrences

/-- **Nothing handed over is lost or made up**: of each partition, what was put and what is still
held are the texts handed over, in order. -/
theorem HandedOver.stored_append_buffered {s : BronzeIngestor} (h : s.HandedOver)
    (partition : Str) : s.writer.stored partition ++ s.writer.buffered partition =
      (s.landings.filter fun l ↦ l.partition = partition).map Landing.rawText :=
  h.account partition

/-- An object is of a partition that something was handed over for, and so are its lines. -/
theorem HandedOver.exists_landing {s : BronzeIngestor} (h : s.HandedOver) {put : Put}
    (hput : put ∈ s.writer.puts) {line : Str} (hline : line ∈ put.lines) :
    line ∈ s.writer.stored put.partition ∧
      ∃ l ∈ s.landings, l.partition = put.partition ∧ l.rawText = line := by
  have hstored : line ∈ s.writer.stored put.partition := List.mem_flatMap.mpr
    ⟨put, List.mem_filter.mpr ⟨hput, decide_eq_true rfl⟩, hline⟩
  refine ⟨hstored, ?_⟩
  have hmem := h.stored_append_buffered put.partition ▸ List.mem_append_left _ hstored
  obtain ⟨l, hl, htext⟩ := List.mem_map.mp hmem
  obtain ⟨hl, hpartition⟩ := List.mem_filter.mp hl
  exact ⟨l, hl, of_decide_eq_true hpartition, htext⟩

end BronzeIngestor

/-! ## What is in bronze -/

/-- The objects of the processes, in the order in which they were put. -/
def putsOf (processes : List BronzeIngestor) : List Put :=
  processes.flatMap fun s ↦ s.writer.puts

/-- A process was handed over the text for the symbol on the date, and has put it. -/
def InBronze (processes : List BronzeIngestor) (p : Partition) (text : Str) : Prop :=
  ∃ s ∈ processes, ∃ l ∈ s.landings, (l.symbol, Datetime.dateText l.receivedAt) = p ∧
    l.rawText = text ∧ text ∈ s.writer.stored l.partition

/-- What the feed and `uuid4` are relied on for: texts are printed on one line, symbols have nothing
in them that means anything in a key, a cursor or a glob, and objects get different names. -/
structure WellFed (processes : List BronzeIngestor) : Prop where
  texts : ∀ s ∈ processes, ∀ l ∈ s.landings, OneLine l.rawText ∧ strip l.rawText ≠ []
  symbols : ∀ s ∈ processes, ∀ l ∈ s.landings,
    l.symbol ≠ [] ∧ ∀ c ∈ l.symbol, c ∉ ['/', ',', '|', '*', '?', '[']
  uuids : ((putsOf processes).map Put.uuid).Nodup
  hex : ∀ put ∈ putsOf processes, ∀ c ∈ put.uuid, c ∈ "0123456789abcdef".toList

section

variable {processes : List BronzeIngestor} {printed : Json → Str}

theorem WellFed.slash (h : WellFed processes) {s : BronzeIngestor} (hs : s ∈ processes)
    {l : Landing} (hl : l ∈ s.landings) : '/' ∉ l.symbol :=
  fun hmem ↦ (h.symbols s hs l hl).2 _ hmem List.mem_cons_self

theorem WellFed.wellNamed (h : WellFed processes) {s : BronzeIngestor} (hs : s ∈ processes)
    {l : Landing} (hl : l ∈ s.landings) :
    WellNamed (l.symbol, Datetime.dateText l.receivedAt) := by
  have hsymbol : ∀ c ∈ ['/', ',', '|', '*', '?', '['], c ∉ l.symbol :=
    fun c hc hmem ↦ (h.symbols s hs l hl).2 c hmem hc
  have hdate : ∀ c ∈ ['/', ',', '|', '*', '?', '['], c ∉ Datetime.dateText l.receivedAt := by
    simp only [List.forall_mem_cons]
    refine ⟨?_, ?_, ?_, ?_, ?_, ?_, fun c hc ↦ absurd hc List.not_mem_nil⟩ <;>
      exact Datetime.not_mem_dateText (by decide) (by decide) _
  have hplain : ∀ name : Str, (∀ c ∈ ['/', ',', '|', '*', '?', '['], c ∉ name) →
      Glob.Plain name := by
    intro name hname c hc
    refine ⟨?_, ?_, ?_⟩ <;> rintro rfl <;> exact hname _ (by decide) hc
  exact ⟨hsymbol ',' (by decide), hsymbol '|' (by decide), hdate ',' (by decide),
    hplain _ hsymbol, hplain _ hdate⟩

theorem WellFed.nodup_keys (h : WellFed processes) :
    ((putsOf processes).map fun put ↦ put.object.key).Nodup := by
  have hslash : ∀ put ∈ putsOf processes, '/' ∉ put.uuid :=
    fun put hput hmem ↦ absurd (h.hex put hput _ hmem) (by decide)
  refine (List.Nodup.of_map _ h.uuids).map_on fun put hput put' hput' hkey ↦ ?_
  exact List.inj_on_of_nodup_map h.uuids hput hput'
    (uuid_eq_of_key_eq (hslash put hput) (hslash put' hput') hkey)

/-- An object is read under the symbol and the date that its texts were handed over for. -/
theorem WellFed.partitionOfKey_eq (h : WellFed processes) {put : Put}
    (hput : put ∈ putsOf processes) {s : BronzeIngestor} (hs : s ∈ processes) {l : Landing}
    (hl : l ∈ s.landings) (hpartition : put.partition = partitionKey l.symbol l.receivedAt) :
    partitionOfKey put.object.key = some (l.symbol, Datetime.dateText l.receivedAt) :=
  partitionOfKey_key (h.symbols s hs l hl).1 (h.slash hs hl) hpartition (h.hex put hput)

/-- What is in bronze is in an object of its partition. -/
theorem InBronze.exists_put {p : Partition} {text : Str} (h : InBronze processes p text) :
    ∃ put ∈ putsOf processes, text ∈ put.lines ∧ ∃ s ∈ processes, ∃ l ∈ s.landings,
      p = (l.symbol, Datetime.dateText l.receivedAt) ∧
        put.partition = partitionKey l.symbol l.receivedAt := by
  obtain ⟨s, hs, l, hl, rfl, -, hstored⟩ := h
  obtain ⟨put, hput, htext⟩ := List.mem_flatMap.mp hstored
  obtain ⟨hput, hpartition⟩ := List.mem_filter.mp hput
  exact ⟨put, List.mem_flatMap.mpr ⟨s, hs, hput⟩, htext, s, hs, l, hl, rfl,
    of_decide_eq_true hpartition⟩

variable (hleft : ∀ s ∈ processes, BronzeIngestor.LeftBehind printed s)
include hleft

/-- What is in an object is in bronze for the partition of the object. -/
theorem inBronze_of_mem_lines {put : Put} (hput : put ∈ putsOf processes) {line : Str}
    (hline : line ∈ put.lines) : ∃ s ∈ processes, ∃ l ∈ s.landings, l.rawText = line ∧
      put.partition = partitionKey l.symbol l.receivedAt ∧
        InBronze processes (l.symbol, Datetime.dateText l.receivedAt) line := by
  obtain ⟨s, hs, hput⟩ := List.mem_flatMap.mp hput
  obtain ⟨hstored, l, hl, hpartition, htext⟩ := (hleft s hs).handedOver.exists_landing hput hline
  exact ⟨s, hs, l, hl, htext, hpartition.symm, s, hs, l, hl, rfl, htext, hpartition ▸ hstored⟩

theorem exists_line_of_mem_putsOf {put : Put} (hput : put ∈ putsOf processes) :
    ∃ line, line ∈ put.lines := by
  obtain ⟨s, hs, hput⟩ := List.mem_flatMap.mp hput
  exact List.exists_mem_of_ne_nil _ ((hleft s hs).handedOver.sound.nonempty put hput)

/-- What is discovered is what something is in bronze for. -/
theorem mem_discover_putsOf_iff (h : WellFed processes) {p : Partition} :
    p ∈ discoverBronzePartitions (Bucket.ofPuts (putsOf processes)) ↔
      ∃ text, InBronze processes p text := by
  rw [mem_discoverBronzePartitions_ofPuts]
  constructor
  · rintro ⟨put, hput, -, hkey⟩
    obtain ⟨line, hline⟩ := exists_line_of_mem_putsOf hleft hput
    obtain ⟨s, hs, l, hl, -, hpartition, hbronze⟩ := inBronze_of_mem_lines hleft hput hline
    rw [h.partitionOfKey_eq hput hs hl hpartition, Option.some_inj] at hkey
    exact ⟨line, hkey ▸ hbronze⟩
  · rintro ⟨text, hbronze⟩
    obtain ⟨put, hput, -, s, hs, l, hl, rfl, hpartition⟩ := hbronze.exists_put
    refine ⟨put, hput, ?_, h.partitionOfKey_eq hput hs hl hpartition⟩
    have hprefix : partitionPrefix l.symbol (Datetime.dateText l.receivedAt) <+: put.object.key :=
      (prefix_key_iff (h.slash hs hl) (h.slash hs hl) (Datetime.slash_not_mem_dateText _)
        hpartition).mpr rfl
    exact (Orchestration.ticks_prefix_partitionPrefix _ _).trans hprefix

/-- **The lines of a partition** are the texts that are in bronze for it. -/
theorem bronzeLines_putsOf (h : WellFed processes) {p : Partition} (hsymbol : '/' ∉ p.1)
    (hdate : '/' ∉ p.2) : ∃ lines, bronzeLines (Bucket.ofPuts (putsOf processes)) p = .ok lines ∧
      ∀ line, line ∈ lines ↔ InBronze processes p line := by
  have htexts : ∀ put ∈ putsOf processes, ∀ line ∈ put.lines, OneLine line ∧ strip line ≠ [] := by
    intro put hput line hline
    obtain ⟨s, hs, l, hl, rfl, -⟩ := inBronze_of_mem_lines hleft hput hline
    exact h.texts s hs l hl
  have hnonempty : ∀ put ∈ putsOf processes, put.lines ≠ [] := by
    intro put hput
    obtain ⟨line, hline⟩ := exists_line_of_mem_putsOf hleft hput
    exact List.ne_nil_of_mem hline
  refine ⟨_, bronzeLines_ofPuts h.nodup_keys p hnonempty htexts, fun line ↦ ?_⟩
  simp only [List.mem_flatMap, listed, Frame.mem_sortBy, List.mem_filter,
    List.isPrefixOf_iff_prefix]
  constructor
  · rintro ⟨put, ⟨hput, hprefix⟩, hline⟩
    obtain ⟨s, hs, l, hl, -, hpartition, hbronze⟩ := inBronze_of_mem_lines hleft hput hline
    obtain rfl := (prefix_key_iff hsymbol (h.slash hs hl) hdate hpartition).mp hprefix
    exact hbronze
  · intro hbronze
    obtain ⟨put, hput, htext, s, hs, l, hl, rfl, hpartition⟩ := hbronze.exists_put
    exact ⟨put, ⟨hput, (prefix_key_iff hsymbol (h.slash hs hl) hdate hpartition).mpr rfl⟩, htext⟩

theorem exists_bronzeLines_of_mem_discover (h : WellFed processes) {p : Partition}
    (hp : p ∈ discoverBronzePartitions (Bucket.ofPuts (putsOf processes))) :
    ∃ lines, bronzeLines (Bucket.ofPuts (putsOf processes)) p = .ok lines ∧
      ∀ line, line ∈ lines ↔ InBronze processes p line := by
  obtain ⟨text, hbronze⟩ := (mem_discover_putsOf_iff hleft h).mp hp
  obtain ⟨-, -, -, s, hs, l, hl, rfl, -⟩ := hbronze.exists_put
  exact bronzeLines_putsOf hleft h (h.slash hs hl) (Datetime.slash_not_mem_dateText _)

/-- The objects land under harmless names, and under those of their partitions. -/
theorem WellFed.keeps (h : WellFed processes) {put : Put} (hput : put ∈ putsOf processes) :
    (Orchestration.Action.land put.object).KeepsNames ∧
      (Orchestration.Action.land put.object).KeepsKeys := by
  obtain ⟨line, hline⟩ := exists_line_of_mem_putsOf hleft hput
  obtain ⟨s, hs, l, hl, -, hpartition, -⟩ := inBronze_of_mem_lines hleft hput hline
  refine ⟨fun p hp ↦ ?_, Orchestration.keepsKeys_put (h.symbols s hs l hl).1 (h.slash hs hl)
    hpartition (h.hex put hput)⟩
  rw [h.partitionOfKey_eq hput hs hl hpartition, Option.some_inj] at hp
  exact hp ▸ h.wellNamed hs hl

end

/-! ## In silver -/

namespace Orchestration

/-- What is materialized by hand has a harmless name. -/
def Action.MaterializesPlain : Action → Prop
  | .materialize p _ => PathNames p
  | _ => True

/-- The rows of a run's files are rebuilt from the lines that the run has read. -/
theorem Holds.rebuilt {outputDir : List Str} {bucket : Bucket} {p : Partition} {files : SilverLake}
    {lines : List Str} (h : Holds outputDir bucket p files)
    (hlines : bronzeLines bucket p = .ok lines) : Rebuilt lines (SilverLake.rows files) := by
  obtain ⟨draws, result, hcompletes⟩ := h
  obtain ⟨rows, hrows, hfiles⟩ := transformSymbolDate_ok hcompletes
  obtain ⟨lines', hlines', hrebuilt⟩ := rebuilt_of_rebuild hrows
  obtain rfl := Except.ok.inj (hlines.symm.trans hlines')
  rw [hfiles]
  exact (rows_newFiles outputDir _ rows).symm ▸ hrebuilt

/-- There is no file of a partition that is not discovered. -/
theorem Stocked.partitionFiles_eq_nil {outputDir : List Str} {s : Orchestration}
    (h : s.Stocked outputDir) {p : Partition} (hp : p ∉ discoverBronzePartitions s.bucket) :
    partitionFiles outputDir p s.lake = [] := by
  refine List.filter_eq_nil_iff.mpr fun file hfile hdir ↦ hp ?_
  obtain ⟨q, hq, hfrom⟩ := h.files file hfile
  rw [decide_eq_true_eq, hfrom, partitionDir_inj] at hdir
  exact hdir ▸ hq

/-- What the processes put and what is materialized by hand stay among harmless names. -/
theorem keeps_of_landed {printed : Json → Str} {processes : List BronzeIngestor}
    (hleft : ∀ s ∈ processes, BronzeIngestor.LeftBehind printed s) (hfed : WellFed processes)
    {before after : List Action} (hlanded : landedIn before = (putsOf processes).map Put.object)
    (hplain : ∀ a ∈ before ++ after, a.MaterializesPlain) (hlands : ∀ o, .land o ∉ after) :
    ∀ a ∈ before ++ after, a.KeepsNames ∧ a.KeepsKeys := by
  intro a ha
  have hmaterializes := hplain a ha
  cases a with
  | land o =>
    have ho : o ∈ landedIn before := List.mem_filterMap.mpr
      ⟨.land o, (List.mem_append.mp ha).resolve_right (hlands o), rfl⟩
    rw [hlanded] at ho
    obtain ⟨put, hput, rfl⟩ := List.mem_map.mp ho
    exact hfed.keeps hleft hput
  | materialize p draws => exact ⟨hmaterializes, trivial⟩
  | _ => exact ⟨trivial, trivial⟩

/-- A process that is killed after one trade, and one that is handed over the same trade and
another one. -/
def twoProcesses (stream : TickStream) : List BronzeIngestor :=
  [((BronzeIngestor.init ["BTC-USD".toList] stream 1 10).run (naming "0") (fun _ ↦ [])
      [trade "BTC-USD" "100"]).2,
    (BronzeIngestor.init ["BTC-USD".toList] stream 200 10).main (naming "1") (fun _ ↦ [])
      [trade "BTC-USD" "100", trade "BTC-USD" "101"]]

/-- The sensor requests the partition after everything has landed. -/
def twoProcessesLand (stream : TickStream) : List Action :=
  ((putsOf (twoProcesses stream)).map fun put ↦ .land put.object) ++
    [.evaluate [firstDay.partition], .start 0 (standingStill "0")]

/-- The backfill after that. -/
def firstDayReplayed (s : Orchestration) : Option Orchestration :=
  Machine.run (step ["silver".toList]) s
    [.backfill [firstDay.partition], .replayNext 0 (standingStill "1")]

theorem leftBehind_twoProcesses :
    ∀ s ∈ twoProcesses {}, BronzeIngestor.LeftBehind (fun _ ↦ []) s := by
  rw [twoProcesses]
  simp only [List.forall_mem_cons]
  exact ⟨⟨_, _, _, _, _, _, .inr rfl⟩, ⟨_, _, _, _, _, _, .inl rfl⟩,
    fun _ h ↦ absurd h List.not_mem_nil⟩

theorem wellFed_twoProcesses : WellFed (twoProcesses {}) := by
  have hlandings : ((twoProcesses {}).flatMap BronzeIngestor.landings).all fun l ↦
      l.rawText.all (!isLineBreak ·) && strip l.rawText ≠ [] && l.symbol ≠ [] &&
        l.symbol.all (· ∉ ['/', ',', '|', '*', '?', '[']) := by
    decide +kernel
  have hnames : (putsOf (twoProcesses {})).all fun put ↦
      put.uuid.all (· ∈ "0123456789abcdef".toList) := by
    decide +kernel
  have hall := List.all_eq_true.mp hlandings
  simp only [List.mem_flatMap, forall_exists_index, and_imp, Bool.and_eq_true, List.all_eq_true,
    decide_eq_true_eq, Bool.not_eq_true'] at hall
  refine ⟨fun s hs l hl ↦ ?_, fun s hs l hl ↦ ?_, by decide +kernel, fun put hput c hc ↦ ?_⟩
  · exact ⟨(hall l s hs hl).1.1.1, (hall l s hs hl).1.1.2⟩
  · exact ⟨(hall l s hs hl).1.2, (hall l s hs hl).2⟩
  · exact of_decide_eq_true (List.all_eq_true.mp (List.all_eq_true.mp hnames put hput) c hc)

theorem materializesPlain_twoProcesses :
    ∀ a ∈ twoProcessesLand {} ++ [.replayNext 0 (standingStill "1")], a.MaterializesPlain := by
  intro a ha
  rw [twoProcessesLand, List.append_assoc] at ha
  rcases List.mem_append.mp ha with ha | ha
  · obtain ⟨put, -, rfl⟩ := List.mem_map.mp ha
    trivial
  · simp only [List.cons_append, List.nil_append, List.mem_cons, List.not_mem_nil,
      or_false] at ha
    rcases ha with rfl | rfl | rfl <;> trivial

end Orchestration

end PostTrade
