import PostTrade.Reconcile.UnmatchedFills

/-!
# Unmatched fills against the whole tick store

The scan for unmatched fills judges every fill it reads against the ticks it reads, and both are
read from the window widened by `tickMatchWindow` on either side.

For a fill inside the window itself this loses nothing: a tick close enough to match it lies in the
widened range, so the verdict is the one the whole tick store gives (`unmatchedFill_exact`).

A fill of the margin is judged too, and a tick close enough to match it may lie beyond the widened
range.  Such a fill is reported although it is matched, and a wider window takes the report back.
`widening_keeps_iff` says exactly when none is taken back.
-/

set_option autoImplicit false

namespace PostTrade

/-! ## The key of the fills table -/

namespace BookStore

/-- `fill_id` is the primary key of the `fills` table. -/
def KeyedFills (book : BookStore) : Prop := (book.fills.map Fill.fillId).Nodup

/-- A fill whose key is taken is not written, so the key stays one. -/
theorem KeyedFills.writeFill {book : BookStore} (h : book.KeyedFills) (fill : Fill) :
    (book.writeFill fill).KeyedFills := by
  rw [BookStore.writeFill]
  split
  · exact h
  · rename_i hfree
    rw [KeyedFills, List.map_append, List.nodup_append]
    refine ⟨h, by simp, ?_⟩
    rintro id hid _ hnew rfl
    simp only [List.map_cons, List.map_nil, List.mem_singleton] at hnew
    exact hfree (hnew ▸ hid)

theorem KeyedFills.eq_of_fillId {book : BookStore} (h : book.KeyedFills) {f g : Fill}
    (hf : f ∈ book.fills) (hg : g ∈ book.fills) (hid : f.fillId = g.fillId) : f = g :=
  List.inj_on_of_nodup_map h hf hg hid

/-- Only one row that is read carries the key of a given fill. -/
theorem KeyedFills.filter_fillId {book : BookStore} (h : book.KeyedFills) {symbol : Str}
    {lo hi : Time} {fill : Fill} (hfill : fill ∈ book.readFillsDf symbol lo hi) :
    ((book.readFillsDf symbol lo hi).filter fun f ↦ f.fillId = fill.fillId) = [fill] := by
  have hstored := (mem_readFillsDf.mp hfill).1
  have hnodup : (book.readFillsDf symbol lo hi).Nodup := by
    rw [readFillsDf, (Frame.sortBy_perm _ _).nodup_iff]
    exact (List.Nodup.of_map _ h).filter _
  have hsame : ((book.readFillsDf symbol lo hi).filter fun f ↦ f.fillId = fill.fillId) =
      (book.readFillsDf symbol lo hi).filter fun f ↦ f = fill := by
    refine List.filter_congr fun f hf ↦ decide_eq_decide.mpr ?_
    constructor
    · exact h.eq_of_fillId (mem_readFillsDf.mp hf).1 hstored
    · rintro rfl
      rfl
  rw [hsame, List.filter_eq, List.count_eq_one_of_mem hnodup hfill, List.replicate_one]

end BookStore

namespace Reconciler

variable (r : Reconciler)

/-! ## Inside the window -/

/-- Some tick of the symbol, anywhere in the store, lies within the match window of the time. -/
def Matched (ticks : TickStore) (symbol : Str) (time : Time) : Prop :=
  ∃ t ∈ ticks, t.symbol = symbol ∧ |t.time - time| ≤ r.tickMatchWindow

instance (ticks : TickStore) (symbol : Str) (time : Time) :
    Decidable (r.Matched ticks symbol time) :=
  inferInstanceAs (Decidable (∃ t ∈ ticks, _))

variable {r}

/-- What a read of the ticks says about a time, as a statement about the store. -/
theorem not_farFrom_readTicksDf_iff {ticks : TickStore} {symbol : Str} {lo hi time : Time} :
    ¬ r.FarFrom (ticks.readTicksDf symbol lo hi) time ↔
      ∃ t ∈ ticks, t.symbol = symbol ∧ |t.time - time| ≤ r.tickMatchWindow ∧
        lo ≤ t.time ∧ t.time ≤ hi := by
  simp only [FarFrom, TickStore.mem_readTicksDf, not_forall, not_lt]
  constructor
  · rintro ⟨t, ⟨ht, hsym, hlo, hhi⟩, hnear⟩
    exact ⟨t, ht, hsym, hnear, hlo, hhi⟩
  · rintro ⟨t, ht, hsym, hnear, hlo, hhi⟩
    exact ⟨t, ⟨ht, hsym, hlo, hhi⟩, hnear⟩

/-- The widened range reads every tick that could match a time inside the window. -/
theorem not_farFrom_iff_matched {ticks : TickStore} {symbol : Str} {start stop time : Time}
    (hstart : start ≤ time) (hstop : time ≤ stop) :
    ¬ r.FarFrom (ticks.readTicksDf symbol (start - r.tickMatchWindow) (stop + r.tickMatchWindow))
        time ↔ r.Matched ticks symbol time := by
  rw [not_farFrom_readTicksDf_iff]
  constructor
  · rintro ⟨t, ht, hsym, hnear, -⟩
    exact ⟨t, ht, hsym, hnear⟩
  · rintro ⟨t, ht, hsym, hnear⟩
    obtain ⟨hbefore, hafter⟩ := abs_le.mp hnear
    exact ⟨t, ht, hsym, hnear, by linarith, by linarith⟩

/-- The unmatched-fill breaks that name a fill which is read. -/
theorem filter_relatedFillId_reconcileSymbol {ticks : TickStore} {book : BookStore}
    (hkey : book.KeyedFills) {symbol : Str} {start stop : Time} {fill : Fill}
    (hfill : fill ∈ book.readFillsDf symbol (start - r.tickMatchWindow)
      (stop + r.tickMatchWindow)) :
    ((r.reconcileSymbol ticks book symbol start stop).filter fun b ↦
        b.breakType = .unmatchedFill ∧ b.relatedFillId = some fill.fillId) =
      if r.FarFrom (ticks.readTicksDf symbol (start - r.tickMatchWindow)
        (stop + r.tickMatchWindow)) fill.timestamp then [r.unmatchedBreak symbol fill] else [] := by
  set fillsDf := book.readFillsDf symbol (start - r.tickMatchWindow) (stop + r.tickMatchWindow)
  set ticksDf := ticks.readTicksDf symbol (start - r.tickMatchWindow) (stop + r.tickMatchWindow)
  calc (r.reconcileSymbol ticks book symbol start stop).filter _
      = (r.findUnmatchedFills symbol fillsDf ticksDf).filter fun b ↦
          b.relatedFillId = some fill.fillId := by
        rw [← filter_unmatchedFill_reconcileSymbol, List.filter_filter]
        refine List.filter_congr fun b _ ↦ ?_
        simp [Bool.and_comm]
    _ = ((fillsDf.filter fun f ↦ f.fillId = fill.fillId).filter fun f ↦
          r.FarFrom ticksDf f.timestamp).map (r.unmatchedBreak symbol) := by
        rw [findUnmatchedFills_eq, List.filter_map, List.filter_filter, List.filter_filter]
        refine congrArg _ (List.filter_congr fun f _ ↦ ?_)
        simp [unmatchedBreak, Bool.and_comm]
    _ = _ := by
        rw [hkey.filter_fillId hfill]
        by_cases hfar : r.FarFrom ticksDf fill.timestamp <;> simp [hfar]

/-- **A fill inside the window is judged by the whole tick store**: one break when no tick of the
symbol is within the match window of it, none otherwise. -/
theorem unmatchedFill_exact (hwindow : 0 ≤ r.tickMatchWindow) (ticks : TickStore)
    {book : BookStore} (hkey : book.KeyedFills) {symbol : Str} {start stop : Time} {fill : Fill}
    (hfill : fill ∈ book.fillsOf symbol) (hstart : start ≤ fill.timestamp)
    (hstop : fill.timestamp ≤ stop) :
    ((r.reconcileSymbol ticks book symbol start stop).filter fun b ↦
        b.breakType = .unmatchedFill ∧ b.relatedFillId = some fill.fillId) =
      if r.Matched ticks symbol fill.timestamp then [] else [r.unmatchedBreak symbol fill] := by
  obtain ⟨hstored, hsym⟩ := BookStore.mem_fillsOf.mp hfill
  have hread : fill ∈ book.readFillsDf symbol (start - r.tickMatchWindow)
      (stop + r.tickMatchWindow) :=
    BookStore.mem_readFillsDf.mpr ⟨hstored, hsym, by linarith, by linarith⟩
  rw [filter_relatedFillId_reconcileSymbol hkey hread]
  by_cases hmatched : r.Matched ticks symbol fill.timestamp
  · rw [if_pos hmatched, if_neg ((not_farFrom_iff_matched hstart hstop).mpr hmatched)]
  · rw [if_neg hmatched,
      if_pos (not_not.mp (mt (not_farFrom_iff_matched hstart hstop).mp hmatched))]

/-! ### A tick at the edge of the match window -/

/-- A purchase at the given time. -/
def fillAt (time : Time) : Fill where
  fillId := "f1".toList
  orderId := "sim-order-1".toList
  symbol := "BTC-USD".toList
  sequence := 1
  price := 100
  quantity := 1 / 100
  side := .buy
  timestamp := time

/-- The row of a tick at the given time. -/
def rowAt (time : Time) : TickRow where
  time := time
  symbol := "BTC-USD".toList
  sequence := 1
  price := 100
  size := none
  side := none
  exchange := "coinbase".toList
  channel := "ticker".toList
  ingestTime := time
  worker := none

/-- The book of one purchase. -/
def bookAt (time : Time) : BookStore := { fills := [fillAt time] }

theorem bookAt_keyedFills (time : Time) : (bookAt time).KeyedFills := List.nodup_singleton _

theorem mem_fillsOf_bookAt (time : Time) : fillAt time ∈ (bookAt time).fillsOf "BTC-USD".toList :=
  BookStore.mem_fillsOf.mpr ⟨List.mem_singleton_self _, rfl⟩

/-- A fill at the end of the window is matched by a tick five seconds behind it. -/
theorem unmatchedFill_exact_at_edge :
    ((reconcileSymbol {} [rowAt (seconds 65)] (bookAt (seconds 60)) "BTC-USD".toList 0
      (seconds 60)).filter fun b ↦
        b.breakType = .unmatchedFill ∧ b.relatedFillId = some "f1".toList) = [] := by
  have hmatched : Matched {} [rowAt (seconds 65)] "BTC-USD".toList
      (fillAt (seconds 60)).timestamp :=
    ⟨rowAt (seconds 65), List.mem_singleton_self _, rfl, by decide⟩
  refine (unmatchedFill_exact (by decide) [rowAt (seconds 65)] (bookAt_keyedFills _)
    (mem_fillsOf_bookAt (seconds 60)) (by decide) (by decide)).trans ?_
  rw [if_pos hmatched]

/-! ## Wider windows -/

variable (r)

/-- A fill of the margin of the window whose matching ticks all lie beyond the widened range, some
of them within the wider one. -/
structure CutOff (ticks : TickStore) (symbol : Str) (start stop start' stop' : Time)
    (fill : Fill) : Prop where
  read : start - r.tickMatchWindow ≤ fill.timestamp ∧ fill.timestamp ≤ stop + r.tickMatchWindow
  margin : fill.timestamp < start ∨ stop < fill.timestamp
  beyond : ∀ t ∈ ticks, t.symbol = symbol → |t.time - fill.timestamp| ≤ r.tickMatchWindow →
    t.time < start - r.tickMatchWindow ∨ stop + r.tickMatchWindow < t.time
  within : ∃ t ∈ ticks, t.symbol = symbol ∧ |t.time - fill.timestamp| ≤ r.tickMatchWindow ∧
    start' - r.tickMatchWindow ≤ t.time ∧ t.time ≤ stop' + r.tickMatchWindow

variable {r}

/-- Whose id is reported over a window. -/
theorem mem_reportedUnmatched_iff {ticks : TickStore} {book : BookStore}
    (hkey : book.KeyedFills) {symbol : Str} {start stop : Time} {fill : Fill}
    (hfill : fill ∈ book.fillsOf symbol) :
    fill.fillId ∈ reportedUnmatched (r.reconcileSymbol ticks book symbol start stop) ↔
      (start - r.tickMatchWindow ≤ fill.timestamp ∧
        fill.timestamp ≤ stop + r.tickMatchWindow) ∧
        r.FarFrom (ticks.readTicksDf symbol (start - r.tickMatchWindow)
          (stop + r.tickMatchWindow)) fill.timestamp := by
  obtain ⟨hstored, hsym⟩ := BookStore.mem_fillsOf.mp hfill
  simp only [reportedUnmatched_reconcileSymbol, List.mem_map, List.mem_filter,
    BookStore.mem_readFillsDf, decide_eq_true_eq]
  constructor
  · rintro ⟨f, ⟨⟨hf, -, hwin⟩, hfar⟩, hid⟩
    obtain rfl := hkey.eq_of_fillId hf hstored hid
    exact ⟨hwin, hfar⟩
  · rintro ⟨hwin, hfar⟩
    exact ⟨fill, ⟨⟨hstored, hsym, hwin⟩, hfar⟩, rfl⟩

/-- Only stored fills of the symbol are reported. -/
theorem exists_fill_of_reportedUnmatched {ticks : TickStore} {book : BookStore} {symbol : Str}
    {start stop : Time} {id : Str}
    (h : id ∈ reportedUnmatched (r.reconcileSymbol ticks book symbol start stop)) :
    ∃ fill ∈ book.fillsOf symbol, fill.fillId = id := by
  rw [reportedUnmatched_reconcileSymbol] at h
  obtain ⟨fill, hfill, rfl⟩ := List.mem_map.mp h
  obtain ⟨hstored, hsym, -⟩ := BookStore.mem_readFillsDf.mp (List.mem_filter.mp hfill).1
  exact ⟨fill, BookStore.mem_fillsOf.mpr ⟨hstored, hsym⟩, rfl⟩

variable (r)

/-- **When a wider window takes no unmatched fill back**: exactly when no fill of the symbol is cut
off in the margin. -/
theorem widening_keeps_iff (ticks : TickStore) {book : BookStore} (hkey : book.KeyedFills)
    (symbol : Str) {start stop start' stop' : Time} (hstart : start' ≤ start)
    (hstop : stop ≤ stop') :
    (∀ id ∈ reportedUnmatched (r.reconcileSymbol ticks book symbol start stop),
        id ∈ reportedUnmatched (r.reconcileSymbol ticks book symbol start' stop')) ↔
      ∀ fill ∈ book.fillsOf symbol, ¬ r.CutOff ticks symbol start stop start' stop' fill := by
  constructor
  · rintro hkeeps fill hfill ⟨hread, -, hbeyond, hwithin⟩
    have hfar : r.FarFrom (ticks.readTicksDf symbol (start - r.tickMatchWindow)
        (stop + r.tickMatchWindow)) fill.timestamp := by
      by_contra hnear
      obtain ⟨t, ht, hsym, hclose, hlo, hhi⟩ := not_farFrom_readTicksDf_iff.mp hnear
      rcases hbeyond t ht hsym hclose with h | h <;> linarith
    have hwide := hkeeps _ ((mem_reportedUnmatched_iff hkey hfill).mpr ⟨hread, hfar⟩)
    exact not_farFrom_readTicksDf_iff.mpr hwithin
      ((mem_reportedUnmatched_iff hkey hfill).mp hwide).2
  · intro hcut id hid
    obtain ⟨fill, hfill, rfl⟩ := exists_fill_of_reportedUnmatched hid
    obtain ⟨hread, hfar⟩ := (mem_reportedUnmatched_iff hkey hfill).mp hid
    rw [mem_reportedUnmatched_iff hkey hfill]
    refine ⟨⟨by linarith, by linarith⟩, ?_⟩
    by_contra hnear
    have hwithin := not_farFrom_readTicksDf_iff.mp hnear
    have hbeyond : ∀ t ∈ ticks, t.symbol = symbol →
        |t.time - fill.timestamp| ≤ r.tickMatchWindow →
          t.time < start - r.tickMatchWindow ∨ stop + r.tickMatchWindow < t.time := by
      intro t ht hsym hclose
      by_contra hin
      rw [not_or, not_lt, not_lt] at hin
      exact not_farFrom_readTicksDf_iff.mpr ⟨t, ht, hsym, hclose, hin⟩ hfar
    refine hcut fill hfill ⟨hread, ?_, hbeyond, hwithin⟩
    -- inside the window the narrow range reads every matching tick already
    by_contra hinside
    rw [not_or, not_lt, not_lt] at hinside
    obtain ⟨t, ht, hsym, hclose, -⟩ := hwithin
    exact (not_farFrom_iff_matched hinside.1 hinside.2).mpr ⟨t, ht, hsym, hclose⟩ hfar

/-! ### A fill between the window and its tick -/

/-- A fill four seconds behind the window, with no tick near it, is reported and stays so. -/
theorem widening_keeps_far_fill :
    reportedUnmatched (reconcileSymbol {} [rowAt (seconds 75)] (bookAt (seconds 64))
        "BTC-USD".toList 0 (seconds 60)) = ["f1".toList] ∧
      "f1".toList ∈ reportedUnmatched (reconcileSymbol {} [rowAt (seconds 75)]
        (bookAt (seconds 64)) "BTC-USD".toList 0 (seconds 70)) := by
  have hnarrow : reportedUnmatched (reconcileSymbol {} [rowAt (seconds 75)] (bookAt (seconds 64))
      "BTC-USD".toList 0 (seconds 60)) = ["f1".toList] := by decide +kernel
  refine ⟨hnarrow, (widening_keeps_iff {} [rowAt (seconds 75)] (bookAt_keyedFills _)
    "BTC-USD".toList (le_refl 0) (by decide)).mpr (fun fill hfill hcut ↦ ?_) _
    (hnarrow ▸ List.mem_singleton_self _)⟩
  obtain ⟨t, ht, -, hclose, -⟩ := hcut.within
  rw [List.mem_singleton.mp ht,
    List.mem_singleton.mp (BookStore.mem_fillsOf.mp hfill).1] at hclose
  exact absurd hclose (by decide)

/-- With a tick four seconds behind the fill, the fill is reported over the window and taken back
over one that reaches ten seconds further. -/
theorem widening_takes_back :
    (bookAt (seconds 64)).KeyedFills ∧
      reportedUnmatched (reconcileSymbol {} [rowAt (seconds 68)] (bookAt (seconds 64))
        "BTC-USD".toList 0 (seconds 60)) = ["f1".toList] ∧
      reportedUnmatched (reconcileSymbol {} [rowAt (seconds 68)] (bookAt (seconds 64))
        "BTC-USD".toList 0 (seconds 70)) = [] := by
  refine ⟨bookAt_keyedFills _, ?_, ?_⟩
  · decide +kernel
  · decide +kernel

end Reconciler

end PostTrade
