import PostTrade.Reconcile.SequenceGaps

/-!
# The gap scan is exact

`_find_sequence_gaps` walks over the distinct sequences of a frame in increasing order and writes
one break for each pair of neighbours that are more than one apart.  `gap_detection_exact` states
what the breaks are as a whole: the maximal runs of absent sequences, in increasing order.  A
sequence is *absent* when no tick of the frame carries it although there are smaller and larger
ones, so the runs are those of the set `Gaps.Between (Carried ticksDf)`.

Only the set of rows matters for all this.  The order of the rows, and a row that comes more than
once, can only show in `detected_at`, where ticks that share a sequence carry different times.
-/

set_option autoImplicit false

namespace PostTrade

/-- The run a sequence-gap break reports: the first sequence of it and how many there are. -/
def Break.run (b : Break) : Option (ℤ × ℤ) :=
  b.relatedSequence.map fun first ↦ (first, b.missingCount)

/-- The break without its time. -/
def Break.untimed (b : Break) : Break := { b with detectedAt := 0 }

namespace Reconciler

theorem run_gapBreak (symbol : Str) (p : ℤ × ℤ) (t : Time) :
    (gapBreak symbol p.1 p.2 t).run = some (Gaps.runOf p) := rfl

/-- The runs of the breaks are those of the gaps, one by one. -/
theorem map_run_findSequenceGaps (symbol : Str) (ticksDf : List TickRow) :
    (findSequenceGaps symbol ticksDf).map Break.run =
      ((Gaps.gaps (seqs ticksDf)).map Gaps.runOf).map some := by
  rw [findSequenceGaps_eq, List.map_map, List.map_map]
  rfl

/-- A break reports the time of a tick that carries the sequence after its run. -/
theorem exists_tick_of_mem_findSequenceGaps {symbol : Str} {ticksDf : List TickRow} {b : Break}
    (hb : b ∈ findSequenceGaps symbol ticksDf) :
    ∃ r, b.run = some r ∧ ∃ t ∈ ticksDf, t.sequence = r.1 + r.2 ∧ t.time = b.detectedAt := by
  rw [findSequenceGaps_eq] at hb
  obtain ⟨p, hp, rfl⟩ := List.mem_map.mp hb
  have hmem := (Gaps.mem_of_mem_pairwise (Gaps.mem_gaps.mp hp).1).2
  obtain ⟨t, ht, hseq, htime⟩ := exists_closingTime ((mem_seqs ticksDf p.2).mp hmem)
  refine ⟨Gaps.runOf p, run_gapBreak symbol p _, t, ht, ?_, htime⟩
  show t.sequence = p.1 + 1 + (p.2 - p.1 - 1)
  omega

/-! ## Frames with the same rows -/

variable {ticksDf ticksDf' : List TickRow} (hrows : ∀ t, t ∈ ticksDf' ↔ t ∈ ticksDf)

include hrows

theorem carried_congr (x : ℤ) : Carried ticksDf' x ↔ Carried ticksDf x := by
  simp only [Carried, hrows]

/-- The distinct sequences are a set in increasing order. -/
theorem seqs_congr : seqs ticksDf' = seqs ticksDf := by
  refine (seqs_pairwise_lt ticksDf').eq_of_mem_iff (seqs_pairwise_lt ticksDf) fun {x} ↦ ?_
  rw [mem_seqs, mem_seqs, carried_congr hrows]

theorem untimed_findSequenceGaps_congr (symbol : Str) :
    (findSequenceGaps symbol ticksDf').map Break.untimed =
      (findSequenceGaps symbol ticksDf).map Break.untimed := by
  rw [findSequenceGaps_eq, findSequenceGaps_eq, seqs_congr hrows, List.map_map, List.map_map]
  rfl

/-- Where ticks that share a sequence share their time, the scan cannot tell the frames apart. -/
theorem findSequenceGaps_congr (symbol : Str)
    (htimes : ∀ t ∈ ticksDf, ∀ u ∈ ticksDf, t.sequence = u.sequence → t.time = u.time) :
    findSequenceGaps symbol ticksDf' = findSequenceGaps symbol ticksDf := by
  rw [findSequenceGaps_eq, findSequenceGaps_eq, seqs_congr hrows]
  refine List.map_congr_left fun p hp ↦ ?_
  have hmem := (Gaps.mem_of_mem_pairwise (Gaps.mem_gaps.mp hp).1).2
  have hcarried : Carried ticksDf p.2 := (mem_seqs ticksDf p.2).mp hmem
  obtain ⟨t, ht, htseq, httime⟩ := exists_closingTime hcarried
  obtain ⟨u, hu, huseq, hutime⟩ := exists_closingTime ((carried_congr hrows p.2).mpr hcarried)
  have hsame : u.time = t.time :=
    htimes u ((hrows u).mp hu) t ht (huseq.trans htseq.symm)
  rw [← httime, ← hutime, hsame]

omit hrows

/-- **Gap detection is exact.**  The breaks are, one by one and in increasing order, the maximal
runs of absent sequences: each states the first sequence of its run and the run's length, no two
runs overlap or touch, and together they are all that is absent.  A break is dated by a tick with
the sequence that ends its run.  Frames with the same rows, in any order and repeated at will,
have the same breaks up to that date, and the same date too where ticks that share a sequence
share their time. -/
theorem gap_detection_exact (symbol : Str) (ticksDf : List TickRow) :
    (∃ runs, Gaps.ListsRuns (Gaps.Between (Carried ticksDf)) runs ∧
      (findSequenceGaps symbol ticksDf).map Break.run = runs.map some) ∧
    (∀ b ∈ findSequenceGaps symbol ticksDf, b.breakType = .sequenceGap ∧
      ∃ r, b.run = some r ∧ ∃ t ∈ ticksDf, t.sequence = r.1 + r.2 ∧ t.time = b.detectedAt) ∧
    ∀ ticksDf' : List TickRow, (∀ t, t ∈ ticksDf' ↔ t ∈ ticksDf) →
      (findSequenceGaps symbol ticksDf').map Break.untimed =
        (findSequenceGaps symbol ticksDf).map Break.untimed ∧
      ((∀ t ∈ ticksDf, ∀ u ∈ ticksDf, t.sequence = u.sequence → t.time = u.time) →
        findSequenceGaps symbol ticksDf' = findSequenceGaps symbol ticksDf) := by
  have hruns := (Gaps.listsRuns_gaps (seqs_pairwise_le ticksDf)).congr
    (Gaps.Between.congr (mem_seqs ticksDf))
  refine ⟨⟨_, hruns, map_run_findSequenceGaps symbol ticksDf⟩, fun b hb ↦ ?_,
    fun ticksDf' hrows ↦ ⟨untimed_findSequenceGaps_congr hrows symbol, fun htimes ↦ ?_⟩⟩
  · exact ⟨breakType_of_mem_sequenceGaps hb, exists_tick_of_mem_findSequenceGaps hb⟩
  · exact findSequenceGaps_congr hrows symbol htimes

end Reconciler

end PostTrade
