import PostTrade.Ingest.Totality
import PostTrade.Silver.Replay
import PostTrade.Silver.NaturalKey

/-!
# Lines that are bad

`transform_symbol_date` drops the lines it has seen, counts those that are no JSON and those that
`normalize` makes nothing of, and has a row for each of the others.  Two guards are not all that a
line can get past: a JSON value that is no object has no `get`, a text can be nested deeper than
`json.loads` can follow, `normalize` raises on some of the objects, and the table refuses a symbol
that UTF-8 cannot encode and a decimal that is written with too many digits.

The last of these, and how deep a text may be nested, are a matter of pyarrow and the interpreter.
`transformWithin` is the run with these two for parameters; where they do not interfere it is
`transformSymbolDate` (`transformWithin_eq`).

`linesReturn_iff` says which lines the loop gets over.  `bad_lines_counted_iff`: the run completes,
with every line accounted for and one row for each distinct line that normalizes, exactly when no
line is harmful.
-/

set_option autoImplicit false

namespace PostTrade

open Python Numbering

/-! ## What the interpreter and pyarrow can take -/

/-- The levels of nesting that `json.loads` can follow, and the lines whose price and size pyarrow
converts as they are written.  It refuses a decimal of more digits than a `decimal128` has, though
they be zeros after the point. -/
structure Limits where
  nesting : ℕ
  converts : Str → Bool

/-- One line: a tick, or nothing where the line counts as a failure. -/
def normalizeLineWithin (limits : Limits) (clock : Str → Time × Time) (sequences : Str → ℕ)
    (line : Str) : Except TransformError (Option Tick) × (Str → ℕ) :=
  match Json.loadsWithin limits.nesting line with
  | .error .decodeError => (.ok none, sequences)
  | .error e => (.error (.json e), sequences)
  | .ok (.dict data) =>
    let (tick, sequences) :=
      normalize sequences data (Json.get data "type".toList) (clock line).1 (clock line).2
    (tick.mapError .normalize, sequences)
  | .ok _ => (.error .attributeError, sequences)

/-- The loop over the lines: the ticks, each with its line, and the number of failures. -/
def normalizeLinesWithin (limits : Limits) (clock : Str → Time × Time) :
    (Str → ℕ) → List Str → Except TransformError (List (Str × Tick) × ℕ)
  | _, [] => .ok ([], 0)
  | sequences, line :: rest =>
    match normalizeLineWithin limits clock sequences line with
    | (.error e, _) => .error e
    | (.ok none, sequences) =>
      (normalizeLinesWithin limits clock sequences rest).map fun r ↦ (r.1, r.2 + 1)
    | (.ok (some tick), sequences) =>
      (normalizeLinesWithin limits clock sequences rest).map fun r ↦ ((line, tick) :: r.1, r.2)

/-- The table. -/
def silverTable (limits : Limits) (ticks : List (Str × Tick)) :
    Except TransformError (List SilverRow) :=
  match (ticks.map Prod.snd).mapM silverRow with
  | .error e => .error e
  | .ok rows => if ticks.all fun t ↦ limits.converts t.1 then .ok rows else .error .arrowInvalid

/-- `transform_symbol_date`, and the lake after it. -/
def transformWithin (limits : Limits) (bucket : Bucket) (outputDir : List Str) (lake : SilverLake)
    (m : Materialization) : Except TransformError SilverTransformResult × SilverLake :=
  match bronzeLines bucket m.partition with
  | .error e => (.error e, lake)
  | .ok rawLines =>
    let (deduped, dropped) := dedupLines [] rawLines
    match normalizeLinesWithin limits m.clock (fun _ ↦ 0) deduped with
    | .error e => (.error e, lake)
    | .ok (ticks, failures) =>
      let lake := clearPartition outputDir m.partition lake
      let result : SilverTransformResult := {
        symbol := m.symbol
        date := m.date
        linesRead := rawLines.length
        duplicatesDropped := dropped
        normalizationFailures := failures
        rowsWritten := 0
        outputFiles := [] }
      if ticks = [] then (.ok result, lake)
      else
        match silverTable limits ticks with
        | .error e => (.error e, lake)
        | .ok rows =>
          (.ok { result with rowsWritten := ticks.length, outputFiles := [m.outPath outputDir] },
            lake ++ [{ path := m.outPath outputDir, rows }])

/-! ## When `normalize` returns -/

/-- The message says too little for a tick: no symbol, no price, or a price that is no number. -/
def SaysNothing (data : Dict) : Prop :=
  (Json.get data "product_id".toList).isNone ∨ (Json.get data "price".toList).isNone ∨
    tryDecimal (Json.get data "price".toList) = .ok none

/-- The message says a tick: a finite price with a size, if any, that is finite or no number, a time
that can be read and a symbol that is a text. -/
def SaysTick (data : Dict) : Prop :=
  ∃ price size time symbol,
    tryDecimal (Json.get data "price".toList) = .ok (some price) ∧ isFinite price ∧
    sizeOf data = .ok size ∧ size.all isFinite ∧
    exchangeTimestampOf (Json.get data "time".toList) 0 = .ok time ∧
    text? (Json.get data "product_id".toList) = some symbol

/-- The message of which `normalize` makes nothing. -/
theorem fields_none_iff {data : Dict} {msgType : Json} {now : Time} :
    fields data msgType now = .ok none ↔ SaysNothing data := by
  rw [fields, SaysNothing]
  dsimp only
  by_cases hnone : ((Json.get data "product_id".toList).isNone ||
      (Json.get data "price".toList).isNone) = true
  · rw [if_pos hnone]
    rw [Bool.or_eq_true] at hnone
    exact iff_of_true rfl (hnone.imp_right .inl)
  · rw [if_neg hnone]
    rw [Bool.or_eq_true, not_or] at hnone
    rw [or_iff_right hnone.1, or_iff_right hnone.2]
    constructor
    · intro h
      obtain ⟨price, hprice, h⟩ := bind_eq_ok.mp h
      cases price with
      | none => exact hprice
      | some price =>
        obtain ⟨size, -, h⟩ := bind_eq_ok.mp h
        obtain ⟨time, -, h⟩ := bind_eq_ok.mp h
        cases h
    · intro hprice
      rw [hprice]
      rfl

/-- A message that says enough for a tick. -/
theorem fields_of_some {data : Dict} (msgType : Json) {now : Time} {price : Decimal}
    {size : Option Decimal} {time : Time} {symbol : Str}
    (hsymbol : text? (Json.get data "product_id".toList) = some symbol)
    (hprice : tryDecimal (Json.get data "price".toList) = .ok (some price))
    (hsize : sizeOf data = .ok size)
    (htime : exchangeTimestampOf (Json.get data "time".toList) now = .ok time) :
    ∃ f, fields data msgType now = .ok (some f) ∧ f.symbol = Json.get data "product_id".toList ∧
      f.price = price ∧ f.size = size := by
  have hpriceNone : (Json.get data "price".toList).isNone = false := by
    generalize Json.get data "price".toList = value at hprice ⊢
    match value, hprice with
    | .bool _, _ | .int _, _ | .float _, _ | .str _, _ | .surrogates _, _ | .list _, _
    | .dict _, _ => rfl
  have hsymbolNone := isNone_of_text (Option.isSome_iff_exists.mpr ⟨symbol, hsymbol⟩)
  rw [fields, hpriceNone, hprice, hsize, htime, hsymbolNone]
  exact ⟨_, rfl, rfl, rfl, rfl⟩

/-- A message that says a tick has one, whose symbol can be encoded where that of the message
can. -/
theorem exists_tick_of_saysTick {data : Dict} (h : SaysTick data) (msgType : Json)
    (sequences : Str → ℕ) (exchangeNow ingestNow : Time) :
    ∃ tick, (normalize sequences data msgType exchangeNow ingestNow).1 = .ok (some tick) ∧
      tick.encodable = isEncodable (Json.get data "product_id".toList) := by
  obtain ⟨price, size, time, symbol, hprice, hfinite, hsize, hsizes, htime, hsymbol⟩ := h
  obtain ⟨time', htime', -⟩ := exchangeTimestampOf_ok htime exchangeNow
  obtain ⟨f, hf, hfsymbol, hfprice, hfsize⟩ := fields_of_some msgType hsymbol hprice hsize htime'
  obtain ⟨tick, htick⟩ : ∃ tick, tickOf symbol (sequences symbol + 1) f ingestNow = .ok tick :=
    tickOf_returns_iff.mpr ⟨hfprice ▸ hfinite, hfsize ▸ hsizes⟩
  refine ⟨tick, ?_, hfsymbol ▸ tickOf_encodable htick⟩
  rw [normalize, hf]
  simp only [numberTick, hfsymbol, hsymbol, htick, Except.map]

/-- Of a message that says too little nothing is made. -/
theorem normalize_of_saysNothing {data : Dict} (h : SaysNothing data) (msgType : Json)
    (sequences : Str → ℕ) (exchangeNow ingestNow : Time) :
    normalize sequences data msgType exchangeNow ingestNow = (.ok none, sequences) := by
  rw [normalize, fields_none_iff.mpr h]

/-- **When `normalize` returns**, at any time and with any counters. -/
theorem normalize_returns_iff {data : Dict} {msgType : Json} {sequences : Str → ℕ}
    {exchangeNow ingestNow : Time} :
    (∃ tick, (normalize sequences data msgType exchangeNow ingestNow).1 = .ok tick) ↔
      SaysNothing data ∨ SaysTick data := by
  constructor
  · rintro ⟨tick, h⟩
    cases tick with
    | none =>
      refine .inl ?_
      rw [normalize] at h
      split at h
      · cases h
      · rename_i hnone
        exact fields_none_iff.mp hnone
      · obtain ⟨tick, -, htick⟩ := map_eq_ok.mp h
        cases htick
    | some tick =>
      obtain ⟨f, symbol, hf, htext, htick, -⟩ := normalize_eq_ok_iff.mp (Prod.ext h rfl)
      obtain ⟨hprice, hsize, htime, hsymbol⟩ := fields_some hf
      obtain ⟨time, htime, -⟩ := exchangeTimestampOf_ok htime 0
      obtain ⟨hfinite, hsizes⟩ := tickOf_returns_iff.mp ⟨tick, htick⟩
      exact .inr ⟨f.price, f.size, time, symbol, hprice, hfinite, hsize, hsizes, htime,
        hsymbol ▸ htext⟩
  · rintro (h | h)
    · exact ⟨none, by rw [normalize_of_saysNothing h]⟩
    · obtain ⟨tick, htick, -⟩ :=
        exists_tick_of_saysTick h msgType sequences exchangeNow ingestNow
      exact ⟨some tick, htick⟩

/-! ## When the loop gets over a line -/

/-- The loop gets over the line: it is no JSON, or an object that `normalize` does not raise on. -/
def LineReturns (line : Str) : Prop :=
  Json.loads line = .error .decodeError ∨
    ∃ data, Json.loads line = .ok (.dict data) ∧ (SaysNothing data ∨ SaysTick data)

/-- **Which lines the loop gets over**, at any time and with any counters. -/
theorem lineReturns_iff (clock : Str → Time × Time) (sequences : Str → ℕ) {line : Str} :
    (∃ tick, (normalizeLine clock sequences line).1 = .ok tick) ↔ LineReturns line := by
  rw [LineReturns]
  constructor
  · rintro ⟨tick, h⟩
    rcases normalizeLine_ok (Prod.ext h rfl) with ⟨hloads, -⟩ | ⟨data, hloads, hnormalize⟩
    · exact .inl hloads
    · exact .inr ⟨data, hloads, normalize_returns_iff.mp ⟨tick, congrArg Prod.fst hnormalize⟩⟩
  · rintro (hloads | ⟨data, hloads, hdata⟩)
    · rw [normalizeLine, hloads]
      exact ⟨none, rfl⟩
    · obtain ⟨tick, htick⟩ : ∃ tick, (normalize sequences data (Json.get data "type".toList)
          (clock line).1 (clock line).2).1 = .ok tick := normalize_returns_iff.mpr hdata
      rw [normalizeLine, hloads]
      dsimp only
      rw [htick]
      exact ⟨tick, rfl⟩

theorem linesReturn_iff {clock : Str → Time × Time} {sequences : Str → ℕ} {lines : List Str} :
    (∃ normalized, normalizeLines clock sequences lines = .ok normalized) ↔
      ∀ line ∈ lines, LineReturns line := by
  induction lines generalizing sequences with
  | nil => exact iff_of_true ⟨_, rfl⟩ (by simp)
  | cons line rest ih =>
    rw [List.forall_mem_cons, normalizeLines,
      ← lineReturns_iff clock sequences]
    have hmap : ∀ (result : Except TransformError (List Tick × ℕ)) (f : _ → List Tick × ℕ),
        (∃ normalized, result.map f = .ok normalized) ↔ ∃ normalized, result = .ok normalized := by
      intro result f
      cases result with
      | error e => simp [Except.map]
      | ok normalized => simp [Except.map]
    generalize normalizeLine clock sequences line = normalized
    obtain ⟨_ | _ | tick, sequences'⟩ := normalized
    · simp
    · exact (hmap _ _).trans (ih.trans (and_iff_right ⟨none, rfl⟩).symm)
    · exact (hmap _ _).trans (ih.trans (and_iff_right ⟨some tick, rfl⟩).symm)

/-! ## The account of the lines -/

/-- Every line is a tick or a failure. -/
theorem length_normalizeLines {clock : Str → Time × Time} {sequences : Str → ℕ} {lines : List Str}
    {ticks : List Tick} {failures : ℕ}
    (h : normalizeLines clock sequences lines = .ok (ticks, failures)) :
    lines.length = failures + ticks.length := by
  induction lines generalizing sequences ticks failures with
  | nil =>
    cases h
    rfl
  | cons line rest ih =>
    rw [normalizeLines] at h
    split at h
    · cases h
    · obtain ⟨normalized, hrest, heq⟩ := map_eq_ok.mp h
      cases heq
      rw [List.length_cons, ih hrest]
      omega
    · obtain ⟨normalized, hrest, heq⟩ := map_eq_ok.mp h
      cases heq
      rw [List.length_cons, List.length_cons, ih hrest]
      omega

/-- Every line is kept or dropped. -/
theorem length_dedupLines (seen lines : List Str) :
    lines.length = (dedupLines seen lines).2 + (dedupLines seen lines).1.length := by
  induction lines generalizing seen with
  | nil => rfl
  | cons line rest ih =>
    rw [dedupLines]
    split
    · have hrest := ih seen
      simp only [List.length_cons]
      omega
    · have hrest := ih (line :: seen)
      simp only [List.length_cons]
      omega

/-! ## Where the limits do not interfere -/

section Limits

variable {limits : Limits} {clock : Str → Time × Time} {sequences : Str → ℕ} {lines : List Str}

/-- The reader follows the line to its end, or to where it is no JSON. -/
def Followed (limits : Limits) (line : Str) : Prop :=
  Json.loadsWithin limits.nesting line ≠ .error .recursionError

theorem normalizeLineWithin_eq {line : Str} (h : Followed limits line) :
    normalizeLineWithin limits clock sequences line = normalizeLine clock sequences line := by
  rw [normalizeLineWithin, (Json.loadsWithin_eq _ line).resolve_left h]
  rfl

/-- The ticks are those of the loop without limits, each with its line. -/
theorem normalizeLinesWithin_eq (h : ∀ line ∈ lines, Followed limits line) :
    normalizeLinesWithin limits clock sequences lines =
      (normalizeLines clock sequences lines).map fun r ↦ ((saying lines).zip r.1, r.2) := by
  induction lines generalizing sequences with
  | nil => rfl
  | cons line rest ih =>
    have hrest := fun sequences ↦
      @ih sequences fun line' hline' ↦ h line' (List.mem_cons_of_mem _ hline')
    rw [normalizeLinesWithin, normalizeLines, normalizeLineWithin_eq (h line List.mem_cons_self)]
    rcases hline : normalizeLine clock sequences line with ⟨_ | _ | tick, sequences'⟩
    · rfl
    · obtain ⟨timed, hcontent⟩ := lineContent_normalizeLine hline
      dsimp only
      rw [hrest, saying_cons, hcontent]
      cases normalizeLines clock sequences' rest with
      | error e => rfl
      | ok r => rfl
    · obtain ⟨timed, hcontent⟩ := lineContent_normalizeLine hline
      dsimp only
      rw [hrest, saying_cons, hcontent]
      cases normalizeLines clock sequences' rest with
      | error e => rfl
      | ok r => rfl

/-- A loop that gets to its end has followed every line. -/
theorem followed_of_normalizeLinesWithin {normalized : List (Str × Tick) × ℕ}
    (h : normalizeLinesWithin limits clock sequences lines = .ok normalized) :
    ∀ line ∈ lines, Followed limits line := by
  induction lines generalizing sequences normalized with
  | nil => exact fun line hline ↦ absurd hline List.not_mem_nil
  | cons line rest ih =>
    rw [normalizeLinesWithin] at h
    have hline : ∀ {tick sequences'},
        normalizeLineWithin limits clock sequences line = (.ok tick, sequences') →
          Followed limits line := by
      intro tick sequences' hok hdeep
      rw [normalizeLineWithin, hdeep] at hok
      cases hok
    rw [List.forall_mem_cons]
    split at h
    · cases h
    · rename_i hok
      obtain ⟨normalized', hrest, -⟩ := map_eq_ok.mp h
      exact ⟨hline hok, ih hrest⟩
    · rename_i hok
      obtain ⟨normalized', hrest, -⟩ := map_eq_ok.mp h
      exact ⟨hline hok, ih hrest⟩

theorem silverTable_ok {ticks : List (Str × Tick)} {rows : List SilverRow}
    (h : silverTable limits ticks = .ok rows) :
    (ticks.map Prod.snd).mapM silverRow = .ok rows ∧ ∀ t ∈ ticks, limits.converts t.1 = true := by
  rw [silverTable] at h
  split at h
  · cases h
  · rename_i rows' hrows
    split at h
    · rename_i hconverts
      cases h
      exact ⟨hrows, List.all_eq_true.mp hconverts⟩
    · cases h

/-- As many lines say a tick as there are ticks. -/
theorem length_saying {ticks : List Tick} {failures : ℕ}
    (h : normalizeLines clock sequences lines = .ok (ticks, failures)) :
    (saying lines).length = ticks.length :=
  (forall₂_normalizeLines h).length_eq

/-- **Where every line is followed and every decimal converted**, a run within limits is a run. -/
theorem transformWithin_eq {bucket : Bucket} {m : Materialization}
    (hlines : bronzeLines bucket m.partition = .ok lines)
    (hfollowed : ∀ line ∈ lines, Followed limits line)
    (hconverts : ∀ line ∈ lines, (lineContent line).isSome = true → limits.converts line = true)
    (outputDir : List Str) (lake : SilverLake) :
    transformWithin limits bucket outputDir lake m =
      transformSymbolDate bucket outputDir lake m := by
  have hmem : ∀ line ∈ (dedupLines [] lines).1, line ∈ lines := fun line hline ↦
    (mem_dedupLines.mp hline).1
  simp only [transformWithin, transformSymbolDate, hlines,
    normalizeLinesWithin_eq fun line hline ↦ hfollowed line (hmem line hline)]
  cases hticks : normalizeLines m.clock (fun _ ↦ 0) (dedupLines [] lines).1 with
  | error e => rfl
  | ok normalized =>
    obtain ⟨ticks, failures⟩ := normalized
    have hlength := length_saying hticks
    have hsnd : ((saying (dedupLines [] lines).1).zip ticks).map Prod.snd = ticks :=
      List.map_snd_zip hlength.ge
    have hnil : (saying (dedupLines [] lines).1).zip ticks = [] ↔ ticks = [] := by
      rw [← List.map_eq_nil_iff (f := Prod.snd), hsnd]
    have hall : ((saying (dedupLines [] lines).1).zip ticks).all
        (fun t ↦ limits.converts t.1) = true := by
      refine List.all_eq_true.mpr fun t ht ↦ ?_
      obtain ⟨hline, hsome⟩ := List.mem_filter.mp (List.of_mem_zip ht).1
      exact hconverts t.1 (hmem t.1 hline) hsome
    simp only [Except.map, silverTable, hsnd, hall, hnil, if_true, List.length_zip, hlength,
      min_self]
    split
    · rfl
    · cases ticks.mapM silverRow with
      | error e => rfl
      | ok rows => rfl

/-! ## When a line does harm -/

/-- The line does no harm.  It is no JSON, it says too little for a tick, or it says a tick that can
be written: its symbol can be encoded, and pyarrow converts its decimals. -/
def LineHarmless (limits : Limits) (line : Str) : Prop :=
  Json.loadsWithin limits.nesting line = .error .decodeError ∨
    ∃ data, Json.loadsWithin limits.nesting line = .ok (.dict data) ∧
      (SaysNothing data ∨ SaysTick data ∧ isEncodable (Json.get data "product_id".toList) = true ∧
        limits.converts line = true)

theorem lineContent_of_saysNothing {line : Str} {data : Dict}
    (hloads : Json.loads line = .ok (.dict data)) (h : SaysNothing data) :
    lineContent line = none := by
  rw [lineContent, hloads]
  dsimp only
  rw [normalize_of_saysNothing h]

theorem lineContent_of_saysTick {line : Str} {data : Dict}
    (hloads : Json.loads line = .ok (.dict data)) (h : SaysTick data) :
    ∃ c, lineContent line = some c ∧
      c.encodable = isEncodable (Json.get data "product_id".toList) := by
  obtain ⟨tick, htick, hencodable⟩ :=
    exists_tick_of_saysTick h (Json.get data "type".toList) (fun _ ↦ 0) 0 0
  exact ⟨_, lineContent_of_normalize hloads (Prod.ext htick rfl), hencodable⟩

/-- A line does no harm where the loop gets over it within the limits, and what it says can be
written. -/
theorem lineHarmless_iff {line : Str} :
    LineHarmless limits line ↔ Followed limits line ∧ LineReturns line ∧
      ∀ c, lineContent line = some c → c.encodable = true ∧ limits.converts line = true := by
  rw [LineHarmless, Followed, LineReturns]
  rcases Json.loadsWithin_eq limits.nesting line with hdeep | hloads
  · rw [hdeep]
    exact iff_of_false (by simp) fun h ↦ h.1 rfl
  · rw [hloads]
    constructor
    · rintro (hnone | ⟨data, hdata, hsays⟩)
      · refine ⟨by rw [hnone]; simp, .inl hnone, fun c hc ↦ ?_⟩
        rw [lineContent, hnone] at hc
        cases hc
      · refine ⟨by rw [hdata]; simp, .inr ⟨data, hdata, hsays.imp_right And.left⟩, fun c hc ↦ ?_⟩
        rcases hsays with hnothing | ⟨htick, hencodable, hconverts⟩
        · rw [lineContent_of_saysNothing hdata hnothing] at hc
          cases hc
        · obtain ⟨c', hc', heq⟩ := lineContent_of_saysTick hdata htick
          obtain rfl := Option.some.inj (hc.symm.trans hc')
          exact ⟨heq.trans hencodable, hconverts⟩
    · rintro ⟨-, hnone | ⟨data, hdata, hsays⟩, hcontent⟩
      · exact .inl hnone
      · refine .inr ⟨data, hdata, hsays.imp_right fun htick ↦ ?_⟩
        obtain ⟨c, hc, heq⟩ := lineContent_of_saysTick hdata htick
        obtain ⟨hencodable, hconverts⟩ := hcontent c hc
        exact ⟨htick, heq.symm.trans hencodable, hconverts⟩

/-- No line does harm in a run that completes. -/
theorem lineHarmless_of_transformWithin {bucket : Bucket} {outputDir : List Str}
    {lake lake' : SilverLake} {m : Materialization} {result : SilverTransformResult}
    (hlines : bronzeLines bucket m.partition = .ok lines)
    (h : transformWithin limits bucket outputDir lake m = (.ok result, lake')) :
    ∀ line ∈ (dedupLines [] lines).1, LineHarmless limits line := by
  simp only [transformWithin, hlines] at h
  split at h
  · cases h
  · rename_i pairs failures hpairs
    have hfollowed := followed_of_normalizeLinesWithin hpairs
    rw [normalizeLinesWithin_eq hfollowed] at hpairs
    obtain ⟨⟨ticks, failures'⟩, hticks, heq⟩ := map_eq_ok.mp hpairs
    obtain ⟨rfl, rfl⟩ := Prod.ext_iff.mp heq
    dsimp only at h
    intro line hline
    refine lineHarmless_iff.mpr ⟨hfollowed line hline, linesReturn_iff.mp ⟨_, hticks⟩ line hline,
      fun c hc ↦ ?_⟩
    have hlength := length_saying hticks
    have hsaying : line ∈ saying (dedupLines [] lines).1 :=
      List.mem_filter.mpr ⟨hline, by rw [hc]; rfl⟩
    obtain ⟨tick, htick, timed, hcontent⟩ :=
      exists_of_forall₂ (forall₂_normalizeLines hticks) hsaying
    obtain rfl := Option.some.inj (hc.symm.trans hcontent)
    split at h
    · -- a line that says a tick has one
      rename_i hnil
      have hsnd := congrArg (List.map Prod.snd) hnil
      rw [List.map_snd_zip hlength.ge] at hsnd
      rw [hsnd] at htick
      exact absurd htick List.not_mem_nil
    · split at h
      · cases h
      · rename_i rows hrows
        obtain ⟨hrows, hconverts⟩ := silverTable_ok hrows
        rw [List.map_snd_zip hlength.ge] at hrows
        obtain ⟨row, -, hrow⟩ := exists_of_forall₂ (forall₂_mapM hrows) htick
        refine ⟨(silverRow_ok hrow).2, ?_⟩
        rw [← List.map_fst_zip hlength.le] at hsaying
        obtain ⟨t, ht, rfl⟩ := List.mem_map.mp hsaying
        exact hconverts t ht

end Limits

/-! ## The run -/

/-- The run completes, every line is accounted for, and the new file has one row for each distinct
line that normalizes, whatever the other lines are. -/
def BadLinesCounted (limits : Limits) (bucket : Bucket) (outputDir : List Str) (lake : SilverLake)
    (m : Materialization) (lines : List Str) : Prop :=
  ∃ result rows distinct,
    transformWithin limits bucket outputDir lake m = (.ok result,
      clearPartition outputDir m.partition lake ++ newFiles outputDir m rows) ∧
    result.linesRead = lines.length ∧
    result.linesRead =
      result.duplicatesDropped + result.normalizationFailures + result.rowsWritten ∧
    result.rowsWritten = rows.length ∧
    distinct.Nodup ∧ (∀ line, line ∈ distinct ↔ line ∈ lines ∧ (lineContent line).isSome = true) ∧
      List.Forall₂ RowOf distinct rows

/-- **When bad lines are counted and nothing else.**  Where the numbers in the lines of a partition
have a place in the columns, the run completes, accounts for every line and has one row for each
distinct line that normalizes, exactly when no line does harm. -/
theorem bad_lines_counted_iff {bucket : Bucket} {m : Materialization} {lines : List Str}
    (hlines : bronzeLines bucket m.partition = .ok lines) (hfits : ∀ line ∈ lines, LineFits line)
    (limits : Limits) (outputDir : List Str) (lake : SilverLake) :
    BadLinesCounted limits bucket outputDir lake m lines ↔
      ∀ line ∈ lines, LineHarmless limits line := by
  have hmem : ∀ {line}, line ∈ (dedupLines [] lines).1 ↔ line ∈ lines := by
    intro line
    rw [mem_dedupLines]
    exact and_iff_left List.not_mem_nil
  constructor
  · rintro ⟨result, rows, distinct, hrun, -⟩ line hline
    exact lineHarmless_of_transformWithin hlines hrun line (hmem.mpr hline)
  · intro hharmless
    have hspec := fun line hline ↦ lineHarmless_iff.mp (hharmless line hline)
    have hcontent : ∀ line ∈ lines, ∀ c, lineContent line = some c →
        c.encodable = true ∧ limits.converts line = true := fun line hline ↦ (hspec line hline).2.2
    obtain ⟨⟨ticks, failures⟩, hticks⟩ :
        ∃ normalized, normalizeLines m.clock (fun _ ↦ 0) (dedupLines [] lines).1 = .ok normalized :=
      linesReturn_iff.mpr fun line hline ↦ (hspec line (hmem.mp hline)).2.1
    have hencodable : ∀ tick ∈ ticks, tick.encodable = true := by
      intro tick htick
      obtain ⟨line, hline, timed, hc⟩ := exists_line_of_tick hticks htick
      exact (hcontent line (hmem.mp hline) _ hc).1
    obtain ⟨rows, hrows⟩ := mapM_silverRow_of_fits
      (fits_of_normalizeLines (fun line hline ↦ hfits line (hmem.mp hline)) hticks) hencodable
    obtain ⟨outputFiles, hrun⟩ := transformSymbolDate_eq hlines hticks hrows outputDir lake
    have hconverts : ∀ line ∈ lines, (lineContent line).isSome = true →
        limits.converts line = true := by
      intro line hline hsome
      obtain ⟨c, hc⟩ := Option.isSome_iff_exists.mp hsome
      exact (hcontent line hline c hc).2
    have hwithin : transformWithin limits bucket outputDir lake m = _ :=
      transformWithin_eq hlines (fun line hline ↦ (hspec line hline).1) hconverts outputDir lake
    rw [← hwithin] at hrun
    obtain ⟨lines', hlines', hrebuilt⟩ :=
      rebuilt_of_rebuild ((rebuild_eq hlines hticks).trans hrows)
    rw [hlines] at hlines'
    cases hlines'
    obtain ⟨distinct, hnodup, hdistinct, hrowsOf⟩ := hrebuilt.rowsOf
    have hlength : rows.length = ticks.length := (forall₂_mapM hrows).length_eq.symm
    refine ⟨_, rows, distinct, hrun, rfl, ?_, hlength.symm, hnodup, hdistinct, hrowsOf⟩
    show lines.length = (dedupLines [] lines).2 + failures + ticks.length
    rw [length_dedupLines [] lines, length_normalizeLines hticks, add_assoc]

instance : DecidablePred LineFits := fun line ↦
  inferInstanceAs (Decidable (∀ c ∈ lineContent line,
    fitsDecimal128 c.price = true ∧ c.size.all fitsDecimal128 = true))

instance : DecidablePred LineReturns := fun line ↦
  decidable_of_iff ((normalizeLine (fun _ ↦ (0, 0)) (fun _ ↦ 0) line).1.isOk = true) (by
    rw [← lineReturns_iff (fun _ ↦ (0, 0)) fun _ ↦ 0]
    cases (normalizeLine (fun _ ↦ (0, 0)) (fun _ ↦ 0) line).1 with
    | error e => simp [Except.isOk, Except.toBool]
    | ok tick => simp [Except.isOk, Except.toBool])

instance (limits : Limits) : DecidablePred (Followed limits) := fun line ↦
  match h : Json.loadsWithin limits.nesting line with
  | .error .recursionError => isFalse fun hfollowed ↦ hfollowed h
  | .error .decodeError => isTrue fun hdeep ↦ by cases h.symm.trans hdeep
  | .error .valueError => isTrue fun hdeep ↦ by cases h.symm.trans hdeep
  | .ok _ => isTrue fun hdeep ↦ by cases h.symm.trans hdeep

instance (limits : Limits) : DecidablePred (LineHarmless limits) := fun line ↦
  decidable_of_iff (Followed limits line ∧ LineReturns line ∧
    ∀ c ∈ lineContent line, c.encodable = true ∧ limits.converts line = true)
    lineHarmless_iff.symm

/-- A bucket with one trade of the partition and an object of one other line. -/
def tradeAndLine (p : Partition) (line : String) : Bucket :=
  (Bucket.empty.put (tradeObject p "0" "100")).put
    ⟨partitionPrefix p.1 p.2 ++ "hour=00/1.ndjson".toList, some line.toList⟩

/-- The two lines. -/
def tradeLineAnd (p : Partition) (line : String) : List Str :=
  ["\x7b\"type\":\"match\",\"product_id\":\"".toList ++ p.1 ++ "\",\"price\":\"100\"\x7d".toList,
    line.toList]

/-- Limits for short texts. -/
def shallow : Limits where
  nesting := 4
  converts _ := true

/-- A line that is no JSON, beside a trade: the one is counted, the other one a row. -/
theorem bad_lines_counted_of_text :
    BadLinesCounted shallow (tradeAndLine btcFirst "not-json-at-all") ["silver".toList] []
      (runFor btcFirst) (tradeLineAnd btcFirst "not-json-at-all") := by
  have hlines : bronzeLines (tradeAndLine btcFirst "not-json-at-all") (runFor btcFirst).partition =
      .ok (tradeLineAnd btcFirst "not-json-at-all") := by
    decide +kernel
  have hfits : ∀ line ∈ tradeLineAnd btcFirst "not-json-at-all", LineFits line := by
    decide +kernel
  exact (bad_lines_counted_iff hlines hfits shallow _ _).mpr (by decide +kernel)

/-- A line whose numbers, if any, have a place in the columns ends the run of its partition. -/
def Fatal (line : String) (e : TransformError) : Prop :=
  bronzeLines (tradeAndLine btcFirst line) btcFirst = .ok (tradeLineAnd btcFirst line) ∧
    (∀ l ∈ tradeLineAnd btcFirst line, LineFits l) ∧
    (transformWithin shallow (tradeAndLine btcFirst line) ["silver".toList] []
      (runFor btcFirst)).1 = .error e ∧
    ¬ BadLinesCounted shallow (tradeAndLine btcFirst line) ["silver".toList] [] (runFor btcFirst)
      (tradeLineAnd btcFirst line)

theorem fatal_of_raised {line : String} {e : TransformError}
    (hlines : bronzeLines (tradeAndLine btcFirst line) btcFirst = .ok (tradeLineAnd btcFirst line))
    (hfits : ∀ l ∈ tradeLineAnd btcFirst line, LineFits l)
    (hraised : (transformWithin shallow (tradeAndLine btcFirst line) ["silver".toList] []
      (runFor btcFirst)).1 = .error e) : Fatal line e := by
  refine ⟨hlines, hfits, hraised, ?_⟩
  rintro ⟨result, rows, distinct, hrun, -⟩
  cases hraised.symm.trans (congrArg Prod.fst hrun)

/-- A line that is a number is JSON, and has no fields to ask for; one that is nested too deep
cannot be followed; and a symbol that is a lone surrogate cannot be encoded. -/
theorem fatal_lines :
    Fatal "5" .attributeError ∧ Fatal "[[[[[]]]]]" (.json .recursionError) ∧
      Fatal "\x7b\"product_id\":\"\\ud800\",\"price\":\"1\"\x7d" .unicodeEncodeError :=
  ⟨fatal_of_raised (by decide +kernel) (by decide +kernel) (by decide +kernel),
    fatal_of_raised (by decide +kernel) (by decide +kernel) (by decide +kernel),
    fatal_of_raised (by decide +kernel) (by decide +kernel) (by decide +kernel)⟩

end PostTrade
