import PostTrade.Reconcile.PositionDrift

/-!
# What the drift scan reports of the rows it is given

`_find_position_drift` on its own, over any frame of fills and any frame of positions.

The sort, the running sum realigned with it and the dictionary by fill id come to this
(`findPositionDrift_exact`): the scan reports, in the order of the positions, the rows whose fill is
in the frame and whose quantity is out of tolerance of the signed quantities of the frame up to that
fill's sequence.  Neither the order of the fills nor their times have a part in it, so the scan
cannot tell frames apart that differ in these alone.
-/

set_option autoImplicit false

namespace PostTrade

/-- The fill with nothing said about its time. -/
def Fill.untimed (f : Fill) : Fill := { f with timestamp := 0 }

@[simp] theorem Fill.untimed_fillId (f : Fill) : f.untimed.fillId = f.fillId := rfl

@[simp] theorem Fill.untimed_sequence (f : Fill) : f.untimed.sequence = f.sequence := rfl

@[simp] theorem Fill.untimed_signedQty (f : Fill) : f.untimed.signedQty = f.signedQty := rfl

namespace Reconciler

variable (r : Reconciler)

/-! ## The order and the times of the fills -/

theorem expectedByFill_map_untimed (fillsDf : List Fill) :
    expectedByFill (fillsDf.map Fill.untimed) = expectedByFill fillsDf := by
  have hsort : Frame.sortBy Fill.sequence (fillsDf.map Fill.untimed) =
      (Frame.sortBy Fill.sequence fillsDf).map Fill.untimed :=
    (Frame.map_sortBy Fill.untimed Fill.sequence fillsDf).symm
  simp [expectedByFill, hsort, Function.comp_def]

theorem findPositionDrift_map_untimed (symbol : Str) (fillsDf : List Fill)
    (positionsDf : List Position) :
    r.findPositionDrift symbol (fillsDf.map Fill.untimed) positionsDf =
      r.findPositionDrift symbol fillsDf positionsDf := by
  simp [findPositionDrift, expectedByFill_map_untimed]

theorem findPositionDrift_perm {fillsDf fillsDf' : List Fill}
    (hseq : (fillsDf.map Fill.sequence).Nodup) (hperm : fillsDf.Perm fillsDf') (symbol : Str)
    (positionsDf : List Position) :
    r.findPositionDrift symbol fillsDf' positionsDf =
      r.findPositionDrift symbol fillsDf positionsDf := by
  have hempty : fillsDf' = [] ↔ fillsDf = [] := by
    rw [← List.length_eq_zero_iff, ← hperm.length_eq, List.length_eq_zero_iff]
  have hexpected : expectedByFill fillsDf' = expectedByFill fillsDf := by
    rw [expectedByFill, expectedByFill, Frame.sortBy_eq_of_perm Fill.sequence hseq hperm]
  simp only [findPositionDrift, hempty, hexpected]

/-! ## The rows that drift -/

/-- The row's fill is among the fills, and its quantity is out of tolerance of their signed
quantities up to the sequence of that fill. -/
def Drifts (fillsDf : List Fill) (pos : Position) : Prop :=
  ∃ f ∈ fillsDf, pos.lastFillId = some f.fillId ∧ r.positionDriftTolerance <
    |pos.quantity - Frame.prefixTotal Fill.sequence Fill.signedQty fillsDf f.sequence|

instance (fillsDf : List Fill) (pos : Position) : Decidable (r.Drifts fillsDf pos) :=
  inferInstanceAs (Decidable (∃ f ∈ fillsDf, _))

/-- The break is the one of the row, with what its fill leaves expected. -/
def ReportsDrift (symbol : Str) (fillsDf : List Fill) (pos : Position) (b : Break) : Prop :=
  ∃ f ∈ fillsDf, pos.lastFillId = some f.fillId ∧
    b = driftBreak symbol pos
      (Frame.prefixTotal Fill.sequence Fill.signedQty fillsDf f.sequence)

section Rows

variable {fillsDf : List Fill} (hids : (fillsDf.map Fill.fillId).Nodup)
  (hseq : (fillsDf.map Fill.sequence).Nodup)

include hids hseq in
/-- The verdicts row by row, in the order of the rows. -/
theorem forall₂_filterMap_driftVerdict (symbol : Str) (positionsDf : List Position) :
    List.Forall₂ (ReportsDrift symbol fillsDf) (positionsDf.filter fun pos ↦ r.Drifts fillsDf pos)
      (positionsDf.filterMap (r.driftVerdict symbol (expectedByFill fillsDf))) := by
  induction positionsDf with
  | nil => exact .nil
  | cons pos rest ih =>
    cases hverdict : r.driftVerdict symbol (expectedByFill fillsDf) pos with
    | none =>
      have hnot : ¬ r.Drifts fillsDf pos := by
        rintro ⟨f, hf, hid, hlt⟩
        rw [(driftVerdict_eq_some_iff r hids hseq).mpr ⟨f, hf, hid, hlt, rfl⟩] at hverdict
        cases hverdict
      rw [List.filter_cons_of_neg (by simpa using hnot), List.filterMap_cons_none hverdict]
      exact ih
    | some b =>
      obtain ⟨f, hf, hid, hlt, hb⟩ := (driftVerdict_eq_some_iff r hids hseq).mp hverdict
      have hdrifts : r.Drifts fillsDf pos := ⟨f, hf, hid, hlt⟩
      rw [List.filter_cons_of_pos (by simpa using hdrifts), List.filterMap_cons_some hverdict]
      exact .cons ⟨f, hf, hid, hb.symm⟩ ih

include hids hseq in
/-- **The drift scan on the rows it is given.**  It reports, in the order of the positions, those
that drift, each with the quantity it drifts from; and it does so whatever the order of the fills
and whatever their times. -/
theorem findPositionDrift_exact (symbol : Str) (positionsDf : List Position) :
    List.Forall₂ (ReportsDrift symbol fillsDf) (positionsDf.filter fun pos ↦ r.Drifts fillsDf pos)
      (r.findPositionDrift symbol fillsDf positionsDf) ∧
    ∀ fillsDf' : List Fill, (fillsDf'.map Fill.untimed).Perm (fillsDf.map Fill.untimed) →
      r.findPositionDrift symbol fillsDf' positionsDf =
        r.findPositionDrift symbol fillsDf positionsDf := by
  constructor
  · rw [findPositionDrift]
    split
    · rename_i hempty
      rcases hempty with rfl | rfl <;> simp [Drifts]
    · exact forall₂_filterMap_driftVerdict r hids hseq symbol positionsDf
  · intro fillsDf' hperm
    have huntimed : ((fillsDf.map Fill.untimed).map Fill.sequence).Nodup := by
      simpa [Function.comp_def] using hseq
    calc r.findPositionDrift symbol fillsDf' positionsDf
        = r.findPositionDrift symbol (fillsDf'.map Fill.untimed) positionsDf :=
          (r.findPositionDrift_map_untimed symbol fillsDf' positionsDf).symm
      _ = r.findPositionDrift symbol (fillsDf.map Fill.untimed) positionsDf :=
          r.findPositionDrift_perm huntimed hperm.symm symbol positionsDf
      _ = r.findPositionDrift symbol fillsDf positionsDf :=
          r.findPositionDrift_map_untimed symbol fillsDf positionsDf

end Rows

/-- Two purchases, the later one stamped a quarter of an hour before the earlier, and a snapshot
with the true quantity: nothing drifts. -/
theorem findPositionDrift_exact_shifted :
    findPositionDrift {} "BTC-USD".toList
      [{ lateFill with timestamp := -minutes 15 }, earlyFill] [latePosition] = [] := by
  have hids : ([earlyFill, lateFill].map Fill.fillId).Nodup := by decide
  have hseq : ([earlyFill, lateFill].map Fill.sequence).Nodup := by decide
  obtain ⟨hrows, horder⟩ := findPositionDrift_exact {} hids hseq "BTC-USD".toList [latePosition]
  have hnone : ([latePosition].filter fun pos ↦
      Drifts {} [earlyFill, lateFill] pos) = [] := by decide +kernel
  rw [hnone] at hrows
  exact (horder _ (by decide +kernel)).trans (List.forall₂_nil_left_iff.mp hrows)

end Reconciler

end PostTrade
