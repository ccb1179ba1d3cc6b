import PostTrade.Reconcile.SequenceGaps
import PostTrade.Reconcile.UnmatchedFills

/-!
# What the reconciler sees of a tick store

Of a row of `ticks` the three scans read the symbol, the sequence and the time.  Two stores that
hold the same such triples are the same to `reconcileAll`, whatever the order of their rows, the
workers that wrote them and the times a row is repeated (`reconcileAll_congr`).  The one condition
is that a sequence of a symbol determines its time: a break is dated by the last row that carries
the sequence after it, and the last row is not a matter of the set.
-/

set_option autoImplicit false

namespace PostTrade

/-- What the scans read of a row. -/
def TickRow.seen (t : TickRow) : Str × ℤ × Time := (t.symbol, t.sequence, t.time)

namespace TickStore

/-- The stores hold the same ticks, each of them once or more. -/
def SameTicks (ticks ticks' : TickStore) : Prop :=
  ∀ x, x ∈ ticks.map TickRow.seen ↔ x ∈ ticks'.map TickRow.seen

/-- Rows of one symbol that share their sequence share their time. -/
def TimesDetermined (ticks : TickStore) : Prop :=
  ∀ t ∈ ticks, ∀ u ∈ ticks, t.symbol = u.symbol → t.sequence = u.sequence → t.time = u.time

variable {ticks ticks' : TickStore}

theorem SameTicks.symm (h : SameTicks ticks ticks') : SameTicks ticks' ticks := fun x ↦ (h x).symm

theorem SameTicks.exists_row (h : SameTicks ticks ticks') {t : TickRow} (ht : t ∈ ticks) :
    ∃ u ∈ ticks', u.seen = t.seen :=
  List.mem_map.mp ((h t.seen).mp (List.mem_map_of_mem ht))

/-- Frames read from the same ticks hold the same ticks. -/
theorem SameTicks.readTicksDf (h : SameTicks ticks ticks') (symbol : Str) (start stop : Time) :
    SameTicks (ticks.readTicksDf symbol start stop) (ticks'.readTicksDf symbol start stop) := by
  have hhalf : ∀ {ticks ticks' : TickStore}, SameTicks ticks ticks' →
      ∀ x ∈ (ticks.readTicksDf symbol start stop).map TickRow.seen,
        x ∈ (ticks'.readTicksDf symbol start stop).map TickRow.seen := by
    intro ticks ticks' h x hx
    obtain ⟨t, ht, rfl⟩ := List.mem_map.mp hx
    obtain ⟨hmem, hsymbol, hlo, hhi⟩ := mem_readTicksDf.mp ht
    obtain ⟨u, hu, hseen⟩ := h.exists_row hmem
    simp only [TickRow.seen, Prod.mk.injEq] at hseen
    refine List.mem_map.mpr ⟨u, mem_readTicksDf.mpr ⟨hu, ?_, ?_, ?_⟩, by simp [TickRow.seen, hseen]⟩
    · exact hseen.1.trans hsymbol
    · exact hseen.2.2.symm ▸ hlo
    · exact hseen.2.2.symm ▸ hhi
  exact fun x ↦ ⟨hhalf h x, hhalf h.symm x⟩

end TickStore

namespace Reconciler

open TickStore

variable (r : Reconciler) {ticksDf ticksDf' : List TickRow}

theorem farFrom_of_sameTicks (h : SameTicks ticksDf ticksDf') (time : Time)
    (hfar : r.FarFrom ticksDf' time) : r.FarFrom ticksDf time := by
  intro t ht
  obtain ⟨u, hu, hseen⟩ := h.exists_row ht
  simp only [TickRow.seen, Prod.mk.injEq] at hseen
  exact hseen.2.2 ▸ hfar u hu

/-- The scan for unmatched fills sees the times of the ticks. -/
theorem findUnmatchedFills_congr (h : SameTicks ticksDf ticksDf') (symbol : Str)
    (fillsDf : List Fill) :
    r.findUnmatchedFills symbol fillsDf ticksDf = r.findUnmatchedFills symbol fillsDf ticksDf' := by
  rw [findUnmatchedFills_eq, findUnmatchedFills_eq]
  congr 1
  refine List.filter_congr fun f _ ↦ decide_eq_decide.mpr ⟨?_, ?_⟩
  · exact r.farFrom_of_sameTicks h.symm f.timestamp
  · exact r.farFrom_of_sameTicks h f.timestamp

theorem carried_of_sameTicks (h : SameTicks ticksDf ticksDf') {x : ℤ} (hx : Carried ticksDf x) :
    Carried ticksDf' x := by
  obtain ⟨t, ht, rfl⟩ := hx
  obtain ⟨u, hu, hseen⟩ := h.exists_row ht
  simp only [TickRow.seen, Prod.mk.injEq] at hseen
  exact ⟨u, hu, hseen.2.1⟩

theorem seqs_of_sameTicks (h : SameTicks ticksDf ticksDf') : seqs ticksDf = seqs ticksDf' := by
  refine (seqs_pairwise_lt ticksDf).eq_of_mem_iff (seqs_pairwise_lt ticksDf') fun {x} ↦ ?_
  rw [mem_seqs, mem_seqs]
  exact ⟨carried_of_sameTicks h, carried_of_sameTicks h.symm⟩

/-- The gap scan sees the sequences of one symbol's ticks and the time each of them determines. -/
theorem findSequenceGaps_of_sameTicks (h : SameTicks ticksDf ticksDf') {symbol : Str}
    (hsymbol : ∀ t ∈ ticksDf', t.symbol = symbol) (htimes : TimesDetermined ticksDf') :
    findSequenceGaps symbol ticksDf = findSequenceGaps symbol ticksDf' := by
  rw [findSequenceGaps_eq, findSequenceGaps_eq, seqs_of_sameTicks h]
  refine List.map_congr_left fun p hp ↦ ?_
  have hcarried := (mem_seqs ticksDf' p.2).mp
    (Gaps.mem_of_mem_pairwise (Gaps.mem_gaps.mp hp).1).2
  obtain ⟨t, ht, htsequence, httime⟩ := exists_closingTime hcarried
  obtain ⟨u, hu, husequence, hutime⟩ := exists_closingTime (carried_of_sameTicks h.symm hcarried)
  obtain ⟨v, hv, hseen⟩ := h.exists_row hu
  simp only [TickRow.seen, Prod.mk.injEq] at hseen
  have hsame : v.time = t.time :=
    htimes v hv t ht ((hsymbol v hv).trans (hsymbol t ht).symm)
      (hseen.2.1.trans (husequence.trans htsequence.symm))
  rw [← httime, ← hutime, ← hseen.2.2, hsame]

variable {ticks ticks' : TickStore}

theorem reconcileSymbol_congr (h : SameTicks ticks ticks') (htimes : TimesDetermined ticks')
    (book : BookStore) (symbol : Str) (start stop : Time) :
    r.reconcileSymbol ticks book symbol start stop
      = r.reconcileSymbol ticks' book symbol start stop := by
  have hread := h.readTicksDf symbol (start - r.tickMatchWindow) (stop + r.tickMatchWindow)
  have hsymbol : ∀ t ∈ ticks'.readTicksDf symbol (start - r.tickMatchWindow)
      (stop + r.tickMatchWindow), t.symbol = symbol := fun t ht ↦ (mem_readTicksDf.mp ht).2.1
  have hgaps := findSequenceGaps_of_sameTicks hread hsymbol fun t ht u hu ↦
    htimes t (mem_readTicksDf.mp ht).1 u (mem_readTicksDf.mp hu).1
  simp only [reconcileSymbol]
  rw [r.findUnmatchedFills_congr hread, hgaps]

/-- **The reconciler sees a store as a set of ticks.** -/
theorem reconcileAll_congr (h : SameTicks ticks ticks') (htimes : TimesDetermined ticks')
    (book : BookStore) (symbols : List Str) (start stop : Time) :
    r.reconcileAll ticks book symbols start stop
      = r.reconcileAll ticks' book symbols start stop := by
  simp only [reconcileAll, r.reconcileSymbol_congr h htimes]

end Reconciler

end PostTrade
