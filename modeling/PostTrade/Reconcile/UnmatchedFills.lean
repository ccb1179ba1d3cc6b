import PostTrade.Reconcile.Reconciler

/-!
# What the scan for unmatched fills reports

`_find_unmatched_fills` compares the distance from a fill to the nearest tick with the match
window.  `unmatchedIds_eq` reads the report back: it names, in the order of the frame, the fills
that every given tick is further away from than the window.
-/

set_option autoImplicit false

namespace PostTrade

/-- The fills named by the unmatched-fill breaks of a list. -/
def reportedUnmatched (breaks : List Break) : List Str :=
  (breaks.filter fun b ↦ b.breakType = .unmatchedFill).filterMap Break.relatedFillId

namespace Reconciler

variable (r : Reconciler)

/-- Every tick is further from the time than the match window. -/
def FarFrom (ticksDf : List TickRow) (time : Time) : Prop :=
  ∀ t ∈ ticksDf, r.tickMatchWindow < |t.time - time|

instance (ticksDf : List TickRow) (time : Time) : Decidable (r.FarFrom ticksDf time) :=
  inferInstanceAs (Decidable (∀ t ∈ ticksDf, _))

/-- The nearest tick is beyond the window when all of them are. -/
theorem farFrom_iff (ticksDf : List TickRow) (time : Time) :
    r.FarFrom ticksDf time ↔
      (nearestDelta time (ticksDf.map TickRow.time)).all fun d ↦ d > r.tickMatchWindow := by
  rw [nearestDelta, List.map_map]
  cases hmin : (ticksDf.map ((fun t ↦ |t - time|) ∘ TickRow.time)).min? with
  | none =>
    rw [List.min?_eq_none_iff, List.map_eq_nil_iff] at hmin
    simp [FarFrom, hmin]
  | some d =>
    obtain ⟨hd, hle⟩ := List.min?_eq_some_iff.mp hmin
    rw [Option.all_some, decide_eq_true_eq]
    constructor
    · intro hfar
      obtain ⟨t, ht, rfl⟩ := List.mem_map.mp hd
      exact hfar t ht
    · intro hlt t ht
      exact lt_of_lt_of_le hlt (hle _ (List.mem_map_of_mem ht))

theorem findUnmatchedFills_cons (symbol : Str) (f : Fill) (rest : List Fill)
    (ticksDf : List TickRow) :
    r.findUnmatchedFills symbol (f :: rest) ticksDf =
      if r.FarFrom ticksDf f.timestamp then
        r.unmatchedBreak symbol f :: r.findUnmatchedFills symbol rest ticksDf
      else r.findUnmatchedFills symbol rest ticksDf := by
  rw [if_congr (r.farFrom_iff ticksDf f.timestamp) rfl rfl]
  simp only [findUnmatchedFills, List.filterMap_cons]
  cases nearestDelta f.timestamp (ticksDf.map TickRow.time) with
  | none => rfl
  | some d =>
    by_cases hd : d > r.tickMatchWindow
    · simp only [hd, if_true, Option.all_some, decide_true]
    · simp only [hd, if_false, Option.all_some, decide_false, Bool.false_eq_true]

/-- **What the scan for unmatched fills reports**: the fills with every tick far from them. -/
theorem findUnmatchedFills_eq (symbol : Str) (fillsDf : List Fill) (ticksDf : List TickRow) :
    r.findUnmatchedFills symbol fillsDf ticksDf =
      (fillsDf.filter fun f ↦ r.FarFrom ticksDf f.timestamp).map (r.unmatchedBreak symbol) := by
  induction fillsDf with
  | nil => rfl
  | cons f rest ih =>
    rw [findUnmatchedFills_cons, ih]
    split
    · rename_i hfar
      rw [List.filter_cons_of_pos (by simpa using hfar), List.map_cons]
    · rename_i hnear
      rw [List.filter_cons_of_neg (by simpa using hnear)]

theorem unmatchedIds_eq (symbol : Str) (fillsDf : List Fill) (ticksDf : List TickRow) :
    (r.findUnmatchedFills symbol fillsDf ticksDf).filterMap Break.relatedFillId =
      (fillsDf.filter fun f ↦ r.FarFrom ticksDf f.timestamp).map Fill.fillId := by
  rw [findUnmatchedFills_eq, List.filterMap_map, ← List.filterMap_eq_map]
  rfl

/-- The fills reported unmatched over a window. -/
theorem reportedUnmatched_reconcileSymbol (ticks : TickStore) (book : BookStore) (symbol : Str)
    (start stop : Time) :
    reportedUnmatched (r.reconcileSymbol ticks book symbol start stop) =
      ((book.readFillsDf symbol (start - r.tickMatchWindow) (stop + r.tickMatchWindow)).filter
        fun f ↦ r.FarFrom (ticks.readTicksDf symbol (start - r.tickMatchWindow)
          (stop + r.tickMatchWindow)) f.timestamp).map Fill.fillId := by
  rw [reportedUnmatched, filter_unmatchedFill_reconcileSymbol, unmatchedIds_eq]

end Reconciler

end PostTrade
