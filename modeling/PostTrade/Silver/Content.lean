import PostTrade.Silver.Rebuild

/-!
# What a line says

A row of silver holds what its line says, and besides that three things the line does not decide:
the number, the time of ingestion, and the exchange time where the message carries none.
`lineContent` is the part that the line decides, and `RowOf` ties a row to its line by it.

The rows of a run are those of the distinct lines that say anything (`rebuilt_of_rebuild`).  Two
rebuilds from the same lines, in whatever order and however often repeated, so have the same rows
up to their order and what the lines do not decide (`Rebuilt.same`).
-/

set_option autoImplicit false

namespace PostTrade

open Python Numbering

/-- What a line decides about its row. -/
structure Content where
  symbol : Str
  price : ℚ
  size : Option ℚ
  side : Option Str
  exchange : Str
  channel : Str
  /-- None where the message carries no time. -/
  exchangeTimestamp : Option Time
  /-- Whether UTF-8 can encode the symbol, as it can that of a row. -/
  encodable : Bool
  deriving DecidableEq

/-- What the line of a tick decides, which carries a time or does not. -/
def Tick.content (timed : Bool) (tick : Tick) : Content where
  symbol := tick.symbol
  price := tick.price
  size := tick.size
  side := tick.side.map Side.value
  exchange := tick.exchange.value
  channel := tick.channel
  exchangeTimestamp := if timed then some tick.exchangeTimestamp else none
  encodable := tick.encodable

/-- What the line of a row decides, which carries a time or does not. -/
def SilverRow.content (timed : Bool) (row : SilverRow) : Content where
  symbol := row.symbol
  price := row.price
  size := row.size
  side := row.side
  exchange := row.exchange
  channel := row.channel
  exchangeTimestamp := if timed then some row.exchangeTimestamp else none
  encodable := true

/-- What a line says; nothing where it does not normalize to a tick. -/
def lineContent (line : Str) : Option Content :=
  match Json.loads line with
  | .ok (.dict data) =>
    match (normalize (fun _ ↦ 0) data (Json.get data "type".toList) 0 0).1 with
    | .ok (some tick) => some (tick.content (carriesTime data))
    | _ => none
  | _ => none

/-- The row is one of the line: it says what the line says.  Whether the line carries a time can be
told from what it says. -/
def RowOf (line : Str) (row : SilverRow) : Prop :=
  ∃ timed, lineContent line = some (row.content timed)

/-- Relations between the elements of lists, one after the other. -/
theorem forall₂_comp {α β γ : Type*} {R : α → β → Prop} {S : β → γ → Prop} {as : List α}
    {bs : List β} {cs : List γ} (h : List.Forall₂ R as bs) (h' : List.Forall₂ S bs cs) :
    List.Forall₂ (Relation.Comp R S) as cs := by
  induction h generalizing cs with
  | nil =>
    cases h'
    exact .nil
  | cons hab _ ih =>
    cases h' with
    | cons hbc h' => exact .cons ⟨_, hab, hbc⟩ (ih h')

/-- Each element of a list has one that is related to it. -/
theorem exists_of_forall₂ {α β : Type*} {R : α → β → Prop} {as : List α} {bs : List β}
    (h : List.Forall₂ R as bs) {a : α} (ha : a ∈ as) : ∃ b ∈ bs, R a b := by
  induction h with
  | nil => cases ha
  | cons hab _ ih =>
    rcases List.mem_cons.mp ha with rfl | ha
    · exact ⟨_, List.mem_cons_self, hab⟩
    · obtain ⟨b, hb, hab⟩ := ih ha
      exact ⟨b, List.mem_cons_of_mem _ hb, hab⟩

/-! ## The content of ticks -/

/-- The number and the time of ingestion are no part of the content, nor is the exchange time where
the message carries none. -/
theorem content_eq {timed : Bool} {tick : Tick} {t : Time}
    (h : timed = true → t = tick.exchangeTimestamp) (sequence : ℤ) (ingestTimestamp : Time) :
    Tick.content timed { tick with sequence, exchangeTimestamp := t, ingestTimestamp } =
      tick.content timed := by
  cases timed with
  | false => rfl
  | true =>
    rw [h rfl]
    rfl

theorem content_silverRow {tick : Tick} {row : SilverRow} (h : silverRow tick = .ok row)
    (timed : Bool) : row.content timed = tick.content timed := by
  obtain ⟨rfl, hencodable⟩ := silverRow_ok h
  rw [Tick.content, hencodable]
  rfl

/-- **A tick says what its message says**, whenever it was normalized and after what. -/
theorem lineContent_of_normalize {line : Str} {data : Dict} {sequences sequences' : Str → ℕ}
    {exchangeNow ingestNow : Time} {tick : Tick} (hloads : Json.loads line = .ok (.dict data))
    (h : normalize sequences data (Json.get data "type".toList) exchangeNow ingestNow
      = (.ok (some tick), sequences')) :
    lineContent line = some (tick.content (carriesTime data)) := by
  obtain ⟨t', heq, hsame⟩ := normalize_eq h (fun _ ↦ 0) 0 0
  rw [lineContent, hloads]
  dsimp only
  rw [heq]
  exact congrArg some (content_eq hsame _ _)

/-- What normalizing a line returns, where it does not raise, is its tick. -/
theorem lineContent_normalizeLine {clock : Str → Time × Time} {sequences sequences' : Str → ℕ}
    {line : Str} {tick : Option Tick}
    (h : normalizeLine clock sequences line = (.ok tick, sequences')) :
    ∃ timed, lineContent line = tick.map (Tick.content timed) := by
  rcases normalizeLine_ok h with ⟨hloads, rfl, -⟩ | ⟨data, hloads, hnormalize⟩
  · refine ⟨false, ?_⟩
    rw [lineContent, hloads]
    rfl
  · refine ⟨carriesTime data, ?_⟩
    cases tick with
    | some tick => exact lineContent_of_normalize hloads hnormalize
    | none =>
      rw [lineContent, hloads]
      dsimp only
      split
      · rename_i tick' hok
        exact absurd hok (normalize_ne_some hnormalize _ _ _ tick')
      · rfl

/-- The exchange time of a tick is the one its line says, or the clock where it says none. -/
theorem exchangeTimestamp_normalizeLine {clock : Str → Time × Time}
    {sequences sequences' : Str → ℕ} {line : Str} {tick : Tick}
    (h : normalizeLine clock sequences line = (.ok (some tick), sequences')) :
    ∃ c, lineContent line = some c ∧ tick.symbol = c.symbol ∧
      tick.exchangeTimestamp = c.exchangeTimestamp.getD (clock line).1 := by
  obtain ⟨data, hloads, hnormalize⟩ := (normalizeLine_ok h).resolve_left
    (by rintro ⟨-, h, -⟩; cases h)
  refine ⟨_, lineContent_of_normalize hloads hnormalize, rfl, ?_⟩
  obtain ⟨f, symbol, hf, -, htick, -⟩ := normalize_eq_ok_iff.mp hnormalize
  have htime := (fields_some hf).2.2.1
  obtain ⟨-, -, heq⟩ := tickOf_ok htick
  rw [Tick.content]
  by_cases hcarries : carriesTime data = true
  · rw [if_pos hcarries]
    rfl
  · unfold exchangeTimestampOf at htime
    rw [← carriesTime, if_neg hcarries] at htime
    rw [if_neg hcarries, heq]
    exact (Except.ok.inj htime).symm

/-! ## The rows of a run -/

/-- The lines that say anything. -/
def saying (lines : List Str) : List Str := lines.filter fun line ↦ (lineContent line).isSome

theorem saying_cons (line : Str) (lines : List Str) :
    saying (line :: lines) =
      if (lineContent line).isSome then line :: saying lines else saying lines :=
  List.filter_cons

/-- The ticks of the lines are one for each line that says anything, as normalizing it returns. -/
theorem forall₂_normalizeLine {clock : Str → Time × Time} {lines : List Str}
    {sequences : Str → ℕ} {ticks : List Tick} {failures : ℕ}
    (h : normalizeLines clock sequences lines = .ok (ticks, failures)) :
    List.Forall₂ (fun line tick ↦ ∃ before after,
      normalizeLine clock before line = (.ok (some tick), after)) (saying lines) ticks := by
  induction lines generalizing sequences ticks failures with
  | nil =>
    cases h
    exact .nil
  | cons line rest ih =>
    rw [normalizeLines] at h
    split at h
    · cases h
    · rename_i sequences' hline
      obtain ⟨⟨ticks', failures'⟩, hrest, heq⟩ := map_eq_ok.mp h
      cases heq
      obtain ⟨timed, hcontent⟩ := lineContent_normalizeLine hline
      rw [saying_cons, hcontent]
      exact ih hrest
    · rename_i tick sequences' hline
      obtain ⟨⟨ticks', failures'⟩, hrest, heq⟩ := map_eq_ok.mp h
      cases heq
      obtain ⟨timed, hcontent⟩ := lineContent_normalizeLine hline
      rw [saying_cons, hcontent]
      exact .cons ⟨_, _, hline⟩ (ih hrest)

/-- Each tick says what its line says. -/
theorem forall₂_normalizeLines {clock : Str → Time × Time} {lines : List Str}
    {sequences : Str → ℕ} {ticks : List Tick} {failures : ℕ}
    (h : normalizeLines clock sequences lines = .ok (ticks, failures)) :
    List.Forall₂ (fun line tick ↦ ∃ timed, lineContent line = some (Tick.content timed tick))
      (saying lines) ticks :=
  (forall₂_normalizeLine h).imp fun _ _ ⟨_, _, hline⟩ ↦ lineContent_normalizeLine hline

/-- The rows of ticks are one for each tick. -/
theorem forall₂_mapM {ticks : List Tick} {rows : List SilverRow}
    (h : ticks.mapM silverRow = .ok rows) :
    List.Forall₂ (fun tick row ↦ silverRow tick = .ok row) ticks rows := by
  induction ticks generalizing rows with
  | nil =>
    cases h
    exact .nil
  | cons tick rest ih =>
    rw [List.mapM_cons] at h
    obtain ⟨row, hrow, h⟩ := bind_eq_ok.mp h
    obtain ⟨rows', hrows, h⟩ := bind_eq_ok.mp h
    cases h
    exact .cons hrow (ih hrows)

theorem nodup_dedupLines (seen lines : List Str) : (dedupLines seen lines).1.Nodup := by
  induction lines generalizing seen with
  | nil => exact List.nodup_nil
  | cons line rest ih =>
    rw [dedupLines]
    split
    · exact ih seen
    · refine List.nodup_cons.mpr ⟨fun hmem ↦ ?_, ih (line :: seen)⟩
      exact (mem_dedupLines.mp hmem).2 List.mem_cons_self

/-- What a rebuild from the lines leaves: one row for each distinct line that normalizes to a tick,
and the rows of every symbol numbered from one on. -/
structure Rebuilt (lines : List Str) (rows : List SilverRow) : Prop where
  rowsOf : ∃ distinct : List Str, distinct.Nodup ∧
    (∀ line, line ∈ distinct ↔ line ∈ lines ∧ (lineContent line).isSome = true) ∧
      List.Forall₂ RowOf distinct rows
  numbered : Numbered SilverRow.symbol SilverRow.sequence rows

/-- **What a run gets out of its lines.** -/
theorem rebuilt_of_rebuild {bucket : Bucket} {m : Materialization} {rows : List SilverRow}
    (h : rebuild bucket m = .ok rows) :
    ∃ lines, bronzeLines bucket m.partition = .ok lines ∧ Rebuilt lines rows := by
  have hnumbered := (rebuild_ok h).1
  obtain ⟨lines, hlines, h⟩ := bind_eq_ok.mp h
  obtain ⟨⟨ticks, failures⟩, hticks, h⟩ := bind_eq_ok.mp h
  refine ⟨lines, hlines, ⟨saying (dedupLines [] lines).1, ?_, fun line ↦ ?_, ?_⟩, hnumbered⟩
  · exact (nodup_dedupLines [] lines).filter _
  · rw [saying, List.mem_filter, mem_dedupLines]
    simp
  · refine (forall₂_comp (forall₂_normalizeLines hticks) (forall₂_mapM h)).imp ?_
    rintro line row ⟨tick, ⟨timed, hcontent⟩, hrow⟩
    exact ⟨timed, by rw [hcontent, content_silverRow hrow]⟩

/-- But for their order, the rows of two rebuilds are those of the same lines. -/
def SameRows (lines : List Str) (rows rows' : List SilverRow) : Prop :=
  ∃ ordered : List SilverRow, ordered.Perm rows' ∧
    List.Forall₂ (fun row row' ↦ ∃ line ∈ lines, RowOf line row ∧ RowOf line row') rows ordered

/-- **Rebuilds of the same lines agree**, if the lines are the same but for their order and how
often they occur. -/
theorem Rebuilt.same {lines lines' : List Str} {rows rows' : List SilverRow}
    (h : Rebuilt lines rows) (h' : Rebuilt lines' rows')
    (hlines : ∀ line, line ∈ lines' ↔ line ∈ lines) : SameRows lines rows rows' := by
  obtain ⟨distinct, hnodup, hmem, hrows⟩ := h.rowsOf
  obtain ⟨distinct', hnodup', hmem', hrows'⟩ := h'.rowsOf
  have hperm : distinct.Perm distinct' :=
    (List.perm_ext_iff_of_nodup hnodup hnodup').mpr fun line ↦ by rw [hmem, hmem', hlines]
  obtain ⟨ordered, hordered, hperm'⟩ := List.perm_comp_forall₂ hperm hrows'
  have hfrom : List.Forall₂ (fun line row ↦ line ∈ lines ∧ RowOf line row) distinct rows :=
    (List.forall₂_and_left ..).mpr ⟨fun line h ↦ ((hmem line).mp h).1, hrows⟩
  have hback : List.Forall₂ (fun row line ↦ line ∈ lines ∧ RowOf line row) rows distinct :=
    hfrom.flip
  refine ⟨ordered, hperm', (forall₂_comp hback hordered).imp ?_⟩
  rintro row row' ⟨line, ⟨hline, hrow⟩, hrow'⟩
  exact ⟨line, hline, hrow, hrow'⟩

end PostTrade
