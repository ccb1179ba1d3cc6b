import PostTrade.Silver.Content
import PostTrade.Silver.NaturalKey

/-!
# What every file of silver is

However the runs of the transform were interleaved, and whichever of them raised: a file of the lake
is what one run that completed has written.  Its rows are numbered from one on for every symbol, and
each is made from a line: it has the symbol and the price that the line says and the times that the
line or the clock says, its exchange is the one the transform normalizes for, and its side, if it
has one, is one of the two there are.

So the natural key is unique over the lake exactly when no two files have a symbol in common.
-/

set_option autoImplicit false

namespace PostTrade

open Python Numbering

/-! ## Rows and their lines -/

/-- The row is made from the line, at the times that the clock shows. -/
structure MadeFrom (clock : Str → Time × Time) (line : Str) (row : SilverRow) : Prop where
  content : ∃ c, lineContent line = some c ∧ row.symbol = c.symbol ∧ row.price = c.price ∧
    row.exchangeTimestamp = c.exchangeTimestamp.getD (clock line).1
  ingest : row.ingestTimestamp = (clock line).2
  exchange : row.exchange = Exchange.coinbase.value
  side : ∀ side ∈ row.side, side ∈ [Side.buy.value, Side.sell.value]

/-- `Tick(...)` is stamped with the exchange of the ingestor and the time of ingestion. -/
theorem tickOf_stamps {symbol : Str} {sequence : ℕ} {f : Fields} {ingestNow : Time} {tick : Tick}
    (h : tickOf symbol sequence f ingestNow = .ok tick) :
    tick.exchange = .coinbase ∧ tick.ingestTimestamp = ingestNow := by
  obtain ⟨price, -, h⟩ := bind_eq_ok.mp h
  obtain ⟨size, -, h⟩ := bind_eq_ok.mp h
  cases h
  exact ⟨rfl, rfl⟩

theorem madeFrom_of_normalizeLine {clock : Str → Time × Time} {before after : Str → ℕ} {line : Str}
    {tick : Tick} {row : SilverRow} (h : normalizeLine clock before line = (.ok (some tick), after))
    (hrow : silverRow tick = .ok row) : MadeFrom clock line row := by
  obtain ⟨c, hc, hsymbol, htime⟩ := exchangeTimestamp_normalizeLine h
  obtain ⟨timed, hcontent⟩ := lineContent_normalizeLine h
  obtain ⟨data, -, hnormalize⟩ := (normalizeLine_ok h).resolve_left (by rintro ⟨-, h, -⟩; cases h)
  obtain ⟨f, symbol, -, -, htick, -⟩ := normalize_eq_ok_iff.mp hnormalize
  obtain ⟨hexchange, hingest⟩ := tickOf_stamps htick
  have hprice : c.price = tick.price := by
    rw [hc, Option.map_some, Option.some.injEq] at hcontent
    rw [hcontent, Tick.content]
  have hside : ∀ side ∈ tick.side.map Side.value, side ∈ [Side.buy.value, Side.sell.value] := by
    intro side hside
    obtain ⟨s, -, rfl⟩ := Option.mem_map.mp hside
    cases s with
    | buy => exact List.mem_cons_self
    | sell => exact List.mem_cons_of_mem _ List.mem_cons_self
  obtain ⟨rfl, -⟩ := silverRow_ok hrow
  exact ⟨⟨c, hc, hsymbol, hprice.symm, htime⟩, hingest, by rw [Tick.toRow, hexchange], hside⟩

/-- **The rows of a run are made from its lines**: one for each distinct line that says anything. -/
theorem forall₂_madeFrom {bucket : Bucket} {m : Materialization} {lines : List Str}
    {rows : List SilverRow} (hlines : bronzeLines bucket m.partition = .ok lines)
    (h : rebuild bucket m = .ok rows) :
    List.Forall₂ (MadeFrom m.clock) (saying (dedupLines [] lines).1) rows := by
  obtain ⟨lines', hlines', h⟩ := bind_eq_ok.mp h
  rw [hlines] at hlines'
  cases hlines'
  obtain ⟨⟨ticks, failures⟩, hticks, hrows⟩ := bind_eq_ok.mp h
  refine (forall₂_comp (forall₂_normalizeLine hticks) (forall₂_mapM hrows)).imp ?_
  rintro line row ⟨tick, ⟨before, after, htick⟩, hrow⟩
  exact madeFrom_of_normalizeLine htick hrow

/-- A property of the rows of a run is one of the lines that say anything. -/
theorem forall_rows_iff {bucket : Bucket} {m : Materialization} {lines : List Str}
    {rows : List SilverRow} (hlines : bronzeLines bucket m.partition = .ok lines)
    (h : rebuild bucket m = .ok rows) {P : SilverRow → Prop} {Q : Str → Content → Prop}
    (hPQ : ∀ line row c, MadeFrom m.clock line row → lineContent line = some c →
      (P row ↔ Q line c)) :
    (∀ row ∈ rows, P row) ↔ ∀ line ∈ lines, ∀ c, lineContent line = some c → Q line c := by
  have hmade := forall₂_madeFrom hlines h
  constructor
  · intro hP line hline c hc
    have hmem : line ∈ saying (dedupLines [] lines).1 := by
      rw [saying, List.mem_filter, mem_dedupLines, hc]
      exact ⟨⟨hline, List.not_mem_nil⟩, rfl⟩
    obtain ⟨row, hrow, hfrom⟩ := exists_of_forall₂ hmade hmem
    exact (hPQ line row c hfrom hc).mp (hP row hrow)
  · intro hQ row hrow
    obtain ⟨line, hline, hfrom⟩ := exists_of_forall₂ hmade.flip hrow
    obtain ⟨c, hc, -⟩ := hfrom.content
    rw [saying, List.mem_filter, mem_dedupLines] at hline
    exact (hPQ line row c hfrom hc).mpr (hQ line hline.1.1 c hc)

/-! ## Files -/

/-- The file is what a run that completed has written. -/
def Product (outputDir : List Str) (file : SilverFile) : Prop :=
  ∃ bucket m, rebuild bucket m = .ok file.rows ∧ file.rows ≠ [] ∧ file.path = m.outPath outputDir

theorem product_of_mem_newFiles {bucket : Bucket} {outputDir : List Str} {m : Materialization}
    {rows : List SilverRow} (h : rebuild bucket m = .ok rows) {file : SilverFile}
    (hfile : file ∈ newFiles outputDir m rows) : Product outputDir file := by
  rw [newFiles] at hfile
  split at hfile
  · cases hfile
  · rename_i hrows
    obtain rfl := List.mem_singleton.mp hfile
    exact ⟨bucket, m, h, hrows, rfl⟩

theorem Product.rows_ne_nil {outputDir : List Str} {file : SilverFile}
    (h : Product outputDir file) : file.rows ≠ [] := by
  obtain ⟨-, -, -, hne, -⟩ := h
  exact hne

theorem Product.numbered {outputDir : List Str} {file : SilverFile} (h : Product outputDir file) :
    Numbered SilverRow.symbol SilverRow.sequence file.rows := by
  obtain ⟨bucket, m, hrows, -⟩ := h
  exact (rebuild_ok hrows).1

theorem Product.madeFrom {outputDir : List Str} {file : SilverFile} (h : Product outputDir file)
    {row : SilverRow} (hrow : row ∈ file.rows) : ∃ clock line, MadeFrom clock line row := by
  obtain ⟨bucket, m, hrows, -⟩ := h
  obtain ⟨lines, hlines, -⟩ := bind_eq_ok.mp hrows
  obtain ⟨line, -, hfrom⟩ := exists_of_forall₂ (forall₂_madeFrom hlines hrows).flip hrow
  exact ⟨m.clock, line, hfrom⟩

/-- The files have no symbol in common. -/
def SymbolsApart (f g : SilverFile) : Prop :=
  ∀ symbol, ¬ ((∃ row ∈ f.rows, row.symbol = symbol) ∧ ∃ row ∈ g.rows, row.symbol = symbol)

/-- The rows of a lake of products carry numbers from one on. -/
theorem one_le_sequence {outputDir : List Str} {lake : SilverLake}
    (h : ∀ file ∈ lake, Product outputDir file) {row : SilverRow} (hrow : row ∈ lake.rows) :
    1 ≤ row.sequence := by
  obtain ⟨file, hfile, hrow⟩ := List.mem_flatMap.mp hrow
  exact ((h file hfile).numbered.exists_iff.mp ⟨row, hrow, rfl, rfl⟩).1

/-- **When the natural key is unique over the lake**: when no two of its files have a symbol in
common. -/
theorem nodup_naturalKey_rows_iff {outputDir : List Str} {lake : SilverLake}
    (h : ∀ file ∈ lake, Product outputDir file) :
    (lake.rows.map SilverRow.naturalKey).Nodup ↔ lake.Pairwise SymbolsApart := by
  rw [SilverLake.rows, List.map_flatMap, List.nodup_flatMap]
  refine (and_iff_right fun file hfile ↦ (h file hfile).numbered.nodup).trans ?_
  exact List.Pairwise.iff_of_mem fun {f g} hf hg ↦
    (h f hf).numbered.disjoint_read_iff (h g hg).numbered id id

end PostTrade
