import PostTrade.Reconcile.Reconciler

/-!
# What the drift scan decides

`_find_position_drift` sorts, takes a running sum, zips it with the fill ids and looks positions
up in the result.  `get_expectedByFill` says what that amounts to on fills with distinct ids and
sequences: a fill's expected position is the total signed quantity of the fills *of the frame* up
to its sequence.

The frame is a read of one window, so this total is the position of the whole book
(`BookStore.positionAt`) less what the read left out (`BookStore.omittedAt`).  The scan therefore
judges a row by the drift from the book displaced by the omitted quantity, and judges no row at
all whose own fill the read left out.  `cut_harmless_iff` states the exact condition under which
that agrees with a verdict against the whole book, and that a window gives the right verdicts
whatever positions were recorded only if it leaves out no fill of the symbol.
-/

set_option autoImplicit false

namespace PostTrade

/-! ## The whole book -/

namespace BookStore

/-- The fills of the symbol carry distinct ids and distinct sequences. -/
structure DistinctFills (book : BookStore) (symbol : Str) : Prop where
  ids : ((book.fillsOf symbol).map Fill.fillId).Nodup
  sequences : ((book.fillsOf symbol).map Fill.sequence).Nodup

/-- The position the fills of a symbol imply once those up to sequence `n` have executed. -/
def positionAt (book : BookStore) (symbol : Str) (n : ℤ) : ℚ :=
  Frame.prefixTotal Fill.sequence Fill.signedQty (book.fillsOf symbol) n

/-- The part of `positionAt` contributed by fills whose time is outside `[lo, hi]`. -/
def omittedAt (book : BookStore) (symbol : Str) (lo hi : Time) (n : ℤ) : ℚ :=
  Frame.prefixTotal Fill.sequence Fill.signedQty
    ((book.fillsOf symbol).filter fun f ↦ !decide (lo ≤ f.timestamp ∧ f.timestamp ≤ hi)) n

theorem prefixTotal_readFillsDf (book : BookStore) (symbol : Str) (lo hi : Time) (n : ℤ) :
    Frame.prefixTotal Fill.sequence Fill.signedQty (book.readFillsDf symbol lo hi) n
      = book.positionAt symbol n - book.omittedAt symbol lo hi n := by
  rw [Frame.prefixTotal_perm _ _ (book.readFillsDf_perm symbol lo hi), positionAt, omittedAt,
    ← Frame.prefixTotal_filter_add_not Fill.sequence Fill.signedQty
      (fun f ↦ decide (lo ≤ f.timestamp ∧ f.timestamp ≤ hi)) (book.fillsOf symbol) n]
  simp

theorem omittedAt_eq_zero {book : BookStore} {symbol : Str} {lo hi : Time}
    (h : ∀ f ∈ book.fillsOf symbol, lo ≤ f.timestamp ∧ f.timestamp ≤ hi) (n : ℤ) :
    book.omittedAt symbol lo hi n = 0 := by
  have hnil : ((book.fillsOf symbol).filter
      fun f ↦ !decide (lo ≤ f.timestamp ∧ f.timestamp ≤ hi)) = [] := by
    rw [List.filter_eq_nil_iff]
    intro f hf
    simp [h f hf]
  rw [omittedAt, hnil]
  rfl

variable {book : BookStore} {symbol : Str}

theorem DistinctFills.ids_readFillsDf (h : book.DistinctFills symbol) (lo hi : Time) :
    ((book.readFillsDf symbol lo hi).map Fill.fillId).Nodup :=
  ((book.readFillsDf_perm symbol lo hi).map _).nodup_iff.mpr
    (h.ids.sublist (List.filter_sublist.map _))

theorem DistinctFills.sequences_readFillsDf (h : book.DistinctFills symbol) (lo hi : Time) :
    ((book.readFillsDf symbol lo hi).map Fill.sequence).Nodup :=
  ((book.readFillsDf_perm symbol lo hi).map _).nodup_iff.mpr
    (h.sequences.sublist (List.filter_sublist.map _))

theorem DistinctFills.eq_of_fillId (h : book.DistinctFills symbol) {f g : Fill}
    (hf : f ∈ book.fillsOf symbol) (hg : g ∈ book.fillsOf symbol) (hid : f.fillId = g.fillId) :
    f = g :=
  List.inj_on_of_nodup_map h.ids hf hg hid

end BookStore

namespace Reconciler

variable (r : Reconciler)

/-! ## The scan over a frame -/

section Frame

variable {fillsDf : List Fill} (hids : (fillsDf.map Fill.fillId).Nodup)
  (hseq : (fillsDf.map Fill.sequence).Nodup)

include hseq in
theorem expectedByFill_eq : expectedByFill fillsDf =
    (Frame.sortBy Fill.sequence fillsDf).map fun f ↦
      (f.fillId, Frame.prefixTotal Fill.sequence Fill.signedQty fillsDf f.sequence) := by
  rw [expectedByFill, Frame.cumsum_map Fill.sequence _ (Frame.sortBy_pairwise_lt _ hseq),
    List.zip_map']
  refine List.map_congr_left fun f _ ↦ ?_
  rw [Frame.prefixTotal_perm _ _ (Frame.sortBy_perm Fill.sequence fillsDf)]

include hids hseq in
/-- **The expected position of a fill** is the total of the frame's fills up to its sequence. -/
theorem get_expectedByFill {id : Str} {e : ℚ} :
    Frame.Dict.get (expectedByFill fillsDf) id = some e ↔
      ∃ f ∈ fillsDf, f.fillId = id ∧
        Frame.prefixTotal Fill.sequence Fill.signedQty fillsDf f.sequence = e := by
  rw [expectedByFill_eq hseq, Frame.Dict.get_eq_some_iff]
  · simp [Prod.ext_iff]
  · rw [List.map_map]
    exact ((Frame.sortBy_perm Fill.sequence fillsDf).map _).nodup_iff.mpr hids

include hids hseq in
/-- The verdict on a row, read against the totals of the frame. -/
theorem driftVerdict_eq_some_iff {symbol : Str} {pos : Position} {b : Break} :
    r.driftVerdict symbol (expectedByFill fillsDf) pos = some b ↔
      ∃ f ∈ fillsDf, pos.lastFillId = some f.fillId ∧
        r.positionDriftTolerance
          < |pos.quantity - Frame.prefixTotal Fill.sequence Fill.signedQty fillsDf f.sequence| ∧
        driftBreak symbol pos
          (Frame.prefixTotal Fill.sequence Fill.signedQty fillsDf f.sequence) = b := by
  rw [driftVerdict]
  split
  · rename_i hnone
    simp only [reduceCtorEq, false_iff, not_exists, not_and]
    intro f hf hid
    rw [hid, Option.bind_some, ← Option.not_isSome_iff_eq_none] at hnone
    exact absurd (Option.isSome_iff_exists.mpr
      ⟨_, (get_expectedByFill hids hseq).mpr ⟨f, hf, rfl, rfl⟩⟩) hnone
  · rename_i e hsome
    obtain ⟨id, hid, hget⟩ := Option.bind_eq_some_iff.mp hsome
    obtain ⟨f, hf, rfl, rfl⟩ := (get_expectedByFill hids hseq).mp hget
    constructor
    · intro h
      split at h
      · rename_i hlt
        exact ⟨f, hf, hid, hlt, Option.some.inj h⟩
      · cases h
    · rintro ⟨g, hg, hid', hlt, hb⟩
      have hgf : g = f :=
        List.inj_on_of_nodup_map hids hg hf (Option.some.inj (hid'.symm.trans hid))
      subst hgf
      rw [if_pos hlt, hb]

include hids hseq in
/-- **The breaks of the drift scan**, row by row. -/
theorem mem_findPositionDrift {symbol : Str} {positionsDf : List Position} {b : Break} :
    b ∈ r.findPositionDrift symbol fillsDf positionsDf ↔
      ∃ pos ∈ positionsDf, ∃ f ∈ fillsDf, pos.lastFillId = some f.fillId ∧
        r.positionDriftTolerance
          < |pos.quantity - Frame.prefixTotal Fill.sequence Fill.signedQty fillsDf f.sequence| ∧
        driftBreak symbol pos
          (Frame.prefixTotal Fill.sequence Fill.signedQty fillsDf f.sequence) = b := by
  rw [findPositionDrift]
  split
  · rename_i hempty
    rcases hempty with rfl | rfl <;> simp
  · simp only [List.mem_filterMap, driftVerdict_eq_some_iff r hids hseq]

end Frame

theorem relatedFillId_of_driftVerdict {symbol : Str} {expected : List (Str × ℚ)} {pos : Position}
    {b : Break} (h : r.driftVerdict symbol expected pos = some b) :
    b.relatedFillId = pos.lastFillId := by
  rw [driftVerdict] at h
  split at h
  · cases h
  · split at h
    · cases h
      rfl
    · cases h

/-- The fills named by the breaks are named by the rows, each row at most once. -/
theorem relatedFillIds_sublist (symbol : Str) (fillsDf : List Fill)
    (positionsDf : List Position) :
    ((r.findPositionDrift symbol fillsDf positionsDf).filterMap Break.relatedFillId).Sublist
      (positionsDf.filterMap Position.lastFillId) := by
  rw [findPositionDrift]
  split
  · exact List.nil_sublist _
  · induction positionsDf with
    | nil => exact List.Sublist.refl _
    | cons pos rest ih =>
      have hrest : ((rest.filterMap (r.driftVerdict symbol (expectedByFill fillsDf))).filterMap
          Break.relatedFillId).Sublist (rest.filterMap Position.lastFillId) := by
        by_cases hnil : fillsDf = [] ∨ rest = []
        · rcases hnil with h | rfl
          · simp_all
          · exact List.Sublist.refl _
        · exact ih hnil
      cases hv : r.driftVerdict symbol (expectedByFill fillsDf) pos with
      | none =>
        rw [List.filterMap_cons_none hv]
        exact hrest.trans ((List.sublist_cons_self pos rest).filterMap _)
      | some b =>
        rw [List.filterMap_cons_some hv, List.filterMap_cons, List.filterMap_cons,
          relatedFillId_of_driftVerdict r hv]
        cases pos.lastFillId with
        | none => exact hrest
        | some id => exact hrest.cons_cons id

/-! ## The verdict on one stored row -/

/-- A position row is reported when the breaks contain the drift break built from it. -/
def Reported (breaks : List Break) (symbol : Str) (pos : Position) : Prop :=
  ∃ expected, driftBreak symbol pos expected ∈ breaks

/-- The text of a drift break names the row and the expected position it was built from. -/
theorem driftBreak_inj {symbol : Str} {p q : Position} {e e' : ℚ}
    (h : driftBreak symbol p e = driftBreak symbol q e') :
    p.quantity = q.quantity ∧ p.lastFillId = q.lastFillId ∧ e = e' := by
  have hdetail := congrArg Break.detail h
  simp only [driftBreak, List.cons.injEq, Piece.decimal.injEq] at hdetail
  exact ⟨hdetail.2.1, congrArg Break.relatedFillId h, hdetail.2.2.2.1⟩

section Window

variable {r} {ticks : TickStore} {book : BookStore} {symbol : Str} {start stop : Time}

/-- **What `reconcile_symbol` decides about a row**: reported when its fill is inside the widened
window and the fills read from that window leave it out of tolerance. -/
theorem reported_reconcileSymbol_iff (hd : book.DistinctFills symbol) {pos : Position}
    (hpos : pos ∈ book.readPositionsDf symbol start stop) {f : Fill}
    (hf : f ∈ book.fillsOf symbol) (hlast : pos.lastFillId = some f.fillId) :
    Reported (r.reconcileSymbol ticks book symbol start stop) symbol pos ↔
      (start - r.tickMatchWindow ≤ f.timestamp ∧ f.timestamp ≤ stop + r.tickMatchWindow) ∧
        r.positionDriftTolerance < |pos.quantity - book.positionAt symbol f.sequence
          + book.omittedAt symbol (start - r.tickMatchWindow) (stop + r.tickMatchWindow)
              f.sequence| := by
  set lo := start - r.tickMatchWindow
  set hi := stop + r.tickMatchWindow
  have hids := hd.ids_readFillsDf lo hi
  have hseq := hd.sequences_readFillsDf lo hi
  have htype : ∀ e, driftBreak symbol pos e ∈ r.reconcileSymbol ticks book symbol start stop ↔
      driftBreak symbol pos e ∈ r.findPositionDrift symbol (book.readFillsDf symbol lo hi)
        (book.readPositionsDf symbol start stop) := by
    intro e
    rw [← r.filter_positionDrift_reconcileSymbol ticks]
    simp [driftBreak]
  have htotal : ∀ n, pos.quantity - (book.positionAt symbol n - book.omittedAt symbol lo hi n)
      = pos.quantity - book.positionAt symbol n + book.omittedAt symbol lo hi n := by
    intro n
    ring
  simp only [Reported, htype, mem_findPositionDrift r hids hseq, book.prefixTotal_readFillsDf]
  constructor
  · rintro ⟨e, q, -, g, hg, hqg, hlt, hb⟩
    obtain ⟨hquantity, hfill, -⟩ := driftBreak_inj hb
    rw [BookStore.mem_readFillsDf] at hg
    have hgf : g = f := by
      refine hd.eq_of_fillId (BookStore.mem_fillsOf.mpr ⟨hg.1, hg.2.1⟩) hf ?_
      exact Option.some.inj (hqg.symm.trans (hfill.trans hlast))
    subst hgf
    refine ⟨hg.2.2, ?_⟩
    rw [hquantity, htotal] at hlt
    exact hlt
  · rintro ⟨hwin, hlt⟩
    obtain ⟨hmem, hsym⟩ := BookStore.mem_fillsOf.mp hf
    refine ⟨_, pos, hpos, f, BookStore.mem_readFillsDf.mpr ⟨hmem, hsym, hwin⟩, hlast, ?_, rfl⟩
    rwa [htotal]

end Window

/-! ## Windowed verdicts against the whole book -/

variable (ticks : TickStore) (book : BookStore) (symbol : Str) (start stop : Time)

/-- The row's verdict is the one the whole book gives: reported when its quantity is out of
tolerance of the position after all stored fills up to its own. -/
def JudgedByWholeBook (pos : Position) (f : Fill) : Prop :=
  Reported (r.reconcileSymbol ticks book symbol start stop) symbol pos ↔
    r.positionDriftTolerance < |pos.quantity - book.positionAt symbol f.sequence|

/-- Every stored row of the symbol inside the window is judged by the whole book. -/
def AllJudgedByWholeBook : Prop :=
  ∀ pos ∈ book.readPositionsDf symbol start stop, ∀ f ∈ book.fillsOf symbol,
    pos.lastFillId = some f.fillId → r.JudgedByWholeBook ticks book symbol start stop pos f

/-- Cutting the fills to the widened window does no harm to the verdict on a row: its fill is
inside and the omitted quantity moves the row's drift across the tolerance in neither direction,
or its fill is outside and the row does not drift. -/
def CutHarmless (pos : Position) (f : Fill) : Prop :=
  let drift := pos.quantity - book.positionAt symbol f.sequence
  let omitted :=
    book.omittedAt symbol (start - r.tickMatchWindow) (stop + r.tickMatchWindow) f.sequence
  if start - r.tickMatchWindow ≤ f.timestamp ∧ f.timestamp ≤ stop + r.tickMatchWindow then
    (r.positionDriftTolerance < |drift + omitted| ↔ r.positionDriftTolerance < |drift|)
  else |drift| ≤ r.positionDriftTolerance

variable {r ticks book symbol start stop}

theorem judgedByWholeBook_iff_cutHarmless (hd : book.DistinctFills symbol) {pos : Position}
    (hpos : pos ∈ book.readPositionsDf symbol start stop) {f : Fill}
    (hf : f ∈ book.fillsOf symbol) (hlast : pos.lastFillId = some f.fillId) :
    r.JudgedByWholeBook ticks book symbol start stop pos f ↔
      r.CutHarmless book symbol start stop pos f := by
  rw [JudgedByWholeBook, reported_reconcileSymbol_iff hd hpos hf hlast, CutHarmless]
  by_cases hwin : start - r.tickMatchWindow ≤ f.timestamp ∧ f.timestamp ≤ stop + r.tickMatchWindow
  · rw [if_pos hwin, and_iff_right hwin]
  · rw [if_neg hwin]
    simp only [hwin, false_and, false_iff, not_lt]

/-- A window that leaves out no fill of the symbol judges every row by the whole book. -/
theorem allJudgedByWholeBook_of_covered (hd : book.DistinctFills symbol)
    (hcover : ∀ f ∈ book.fillsOf symbol,
      start - r.tickMatchWindow ≤ f.timestamp ∧ f.timestamp ≤ stop + r.tickMatchWindow) :
    r.AllJudgedByWholeBook ticks book symbol start stop := by
  intro pos hpos f hf hlast
  rw [judgedByWholeBook_iff_cutHarmless hd hpos hf hlast, CutHarmless, if_pos (hcover f hf),
    BookStore.omittedAt_eq_zero hcover, add_zero]

/-- A row that drifts from the whole book escapes when its fill is outside the widened window. -/
theorem covered_of_allJudgedByWholeBook (hd : book.DistinctFills symbol) (hwindow : start ≤ stop)
    (h : ∀ positions, r.AllJudgedByWholeBook ticks { book with positions } symbol start stop) :
    ∀ f ∈ book.fillsOf symbol,
      start - r.tickMatchWindow ≤ f.timestamp ∧ f.timestamp ≤ stop + r.tickMatchWindow := by
  intro f hf
  by_contra hout
  -- record a quantity that no tolerance accepts, at the start of the window
  let pos : Position :=
    { symbol := symbol
      quantity := book.positionAt symbol f.sequence + (|r.positionDriftTolerance| + 1)
      avgPrice := 0
      lastUpdated := start
      lastFillId := some f.fillId }
  let book' : BookStore := { book with positions := [pos] }
  have hd' : book'.DistinctFills symbol := ⟨hd.ids, hd.sequences⟩
  have hpos : pos ∈ book'.readPositionsDf symbol start stop := by
    simp [book', pos, hwindow]
  have hcut := (judgedByWholeBook_iff_cutHarmless (f := f) hd' hpos hf rfl).mp
    (h [pos] pos hpos f hf rfl)
  rw [CutHarmless, if_neg hout] at hcut
  have hdrift : pos.quantity - book'.positionAt symbol f.sequence
      = |r.positionDriftTolerance| + 1 := by
    simp [pos, book', BookStore.positionAt, BookStore.fillsOf]
  simp only [hdrift] at hcut
  have hpositive : 0 < |r.positionDriftTolerance| + 1 := by positivity
  rw [abs_of_pos hpositive] at hcut
  have := le_abs_self r.positionDriftTolerance
  linarith

variable (r ticks book symbol start stop)

/-- **When windowed drift verdicts are those of the whole book.**  For a stored row: exactly when
the cut is harmless to it.  For a book and a window, whatever positions are recorded: exactly when
the widened window leaves out no fill of the symbol. -/
theorem cut_harmless_iff (hd : book.DistinctFills symbol) :
    (∀ pos ∈ book.readPositionsDf symbol start stop, ∀ f ∈ book.fillsOf symbol,
      pos.lastFillId = some f.fillId →
        (r.JudgedByWholeBook ticks book symbol start stop pos f ↔
          r.CutHarmless book symbol start stop pos f)) ∧
    (start ≤ stop →
      ((∀ positions, r.AllJudgedByWholeBook ticks { book with positions } symbol start stop) ↔
        ∀ f ∈ book.fillsOf symbol,
          start - r.tickMatchWindow ≤ f.timestamp ∧
            f.timestamp ≤ stop + r.tickMatchWindow)) :=
  ⟨fun _ hpos _ hf hlast ↦ judgedByWholeBook_iff_cutHarmless hd hpos hf hlast,
    fun hwindow ↦ ⟨covered_of_allJudgedByWholeBook hd hwindow,
      fun hcover _ ↦ allJudgedByWholeBook_of_covered ⟨hd.ids, hd.sequences⟩ hcover⟩⟩

/-! ### A window that starts after the first fill -/

/-- A purchase, and another one an hour later. -/
def earlyFill : Fill where
  fillId := "f1".toList
  orderId := "sim-order-1".toList
  symbol := "BTC-USD".toList
  sequence := 1
  price := 100
  quantity := 1 / 100
  side := .buy
  timestamp := 0

/-- The later purchase. -/
def lateFill : Fill :=
  { earlyFill with
    fillId := "f2".toList, orderId := "sim-order-2".toList, sequence := 2, quantity := 1 / 50
    timestamp := seconds 3600 }

/-- The snapshot taken after the later purchase, with the true position. -/
def latePosition : Position where
  symbol := "BTC-USD".toList
  quantity := 3 / 100
  avgPrice := 100
  lastUpdated := seconds 3600
  lastFillId := some "f2".toList

/-- The book the two purchases leave behind, with the snapshot after the later one. -/
def twoFillBook : BookStore where
  fills := [earlyFill, lateFill]
  positions := [latePosition]

theorem twoFillBook_distinctFills : twoFillBook.DistinctFills "BTC-USD".toList :=
  ⟨by decide, by decide⟩

/-- Over a window that covers the book the snapshot is judged by the whole of it. -/
theorem cut_harmless_iff_twoFillBook :
    JudgedByWholeBook {} [] twoFillBook "BTC-USD".toList 0 (seconds 3600) latePosition lateFill :=
  ((cut_harmless_iff {} [] twoFillBook "BTC-USD".toList 0 (seconds 3600)
    twoFillBook_distinctFills).1 latePosition (by decide +kernel) lateFill (by decide +kernel)
      rfl).mpr (by rw [CutHarmless, if_pos (by decide)]; decide +kernel)

/-- Over a window that starts with the later purchase the same snapshot is reported as drifted,
although its quantity is exactly the position of the book. -/
theorem late_window_reports_true_position :
    twoFillBook.DistinctFills "BTC-USD".toList ∧
      latePosition ∈ twoFillBook.readPositionsDf "BTC-USD".toList (seconds 3600) (seconds 3600) ∧
      lateFill ∈ twoFillBook.fillsOf "BTC-USD".toList ∧
      latePosition.lastFillId = some lateFill.fillId ∧
      latePosition.quantity = twoFillBook.positionAt "BTC-USD".toList lateFill.sequence ∧
      ¬ JudgedByWholeBook {} [] twoFillBook "BTC-USD".toList (seconds 3600) (seconds 3600)
        latePosition lateFill := by
  refine ⟨twoFillBook_distinctFills, by decide +kernel, by decide +kernel, rfl, by decide +kernel,
    fun h ↦ ?_⟩
  have hreported : Reported (reconcileSymbol {} [] twoFillBook "BTC-USD".toList (seconds 3600)
      (seconds 3600)) "BTC-USD".toList latePosition :=
    ⟨1 / 50, by decide +kernel⟩
  exact absurd (h.mp hreported) (by decide +kernel)

end Reconciler

end PostTrade
