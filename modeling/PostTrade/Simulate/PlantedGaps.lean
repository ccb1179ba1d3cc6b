import PostTrade.Simulate.Plantings
import PostTrade.Reconcile.SequenceGaps

/-!
# Planted gaps and reported gaps

A sequence gap is planted by deleting a slice of the tracked sequences, and the reconciler finds
one by looking for numbers missing between two that are there.  This file compares the two, over a
run that consumes the ticks of a store in increasing order.

The slice never reaches the newest tracked sequence, so there is always a larger one left
(`exists_gt_of_mem_sequences`).  It may reach the oldest: `deleted_declared_iff` says that the
reconciler declares all that was deleted missing exactly when no planting took sequence one, which
leaves nothing below it.

In the other direction nothing is declared missing that was not deleted, and `gaps_le_planted`
bounds the number of breaks by the number of plantings logged.
-/

set_option autoImplicit false

namespace PostTrade

namespace Simulator

open Numbering Reconciler

/-- The sequences of a symbol a run consumes, in order. -/
def consumed (events : List Event) (symbol : Str) : List ℤ :=
  numbers Tick.symbol Tick.sequence symbol (seenTicks events)

theorem mem_consumed {events : List Event} {symbol : Str} {m : ℤ} :
    m ∈ consumed events symbol ↔ ∃ tick ∈ seenTicks events, tick.symbol = symbol ∧
      tick.sequence = m := mem_numbers

/-- The stored ticks of every symbol are exactly those from one on, and the run consumes ticks of
the store. -/
structure OverStored (tickStore : TickStore) (events : List Event) : Prop where
  stored : ∀ symbol, ∃ n : ℕ, ∀ m, m ∈ tickStore.sequencesOf symbol ↔ 1 ≤ m ∧ m ≤ n
  consumed : ∀ symbol, ∀ m ∈ consumed events symbol, m ∈ tickStore.sequencesOf symbol

/-- The sequence was stored before the run and is not after it. -/
def Deleted (before after : TickStore) (symbol : Str) (m : ℤ) : Prop :=
  m ∈ before.sequencesOf symbol ∧ m ∉ after.sequencesOf symbol

instance (before after : TickStore) (symbol : Str) (m : ℤ) :
    Decidable (Deleted before after symbol m) :=
  inferInstanceAs (Decidable (_ ∧ _))

/-- The sequence lies in the range of a sequence gap logged for the symbol. -/
def LoggedGap (book : BookStore) (symbol : Str) (m : ℤ) : Prop :=
  ∃ a ∈ book.anomaliesOf .sequenceGap symbol,
    (∃ first, a.relatedSequenceStart = some first ∧ first ≤ m) ∧
      ∃ last, a.relatedSequenceEnd = some last ∧ m ≤ last

/-! ## One planting -/

/-- The planting takes the first sequence there is. -/
def Planting.TakesFirst (p : Planting) : Prop :=
  6 ≤ p.window.length ∧ p.window.head? = some 1 ∧ p.start = 0

instance (p : Planting) : Decidable p.TakesFirst :=
  inferInstanceAs (Decidable (_ ∧ _))

theorem Planting.sequences_isInfix (p : Planting) : p.sequences <:+: p.window := by
  rw [Planting.sequences]
  split
  · exact List.nil_infix
  · exact (List.take_prefix _ _).isInfix.trans (List.drop_suffix _ _).isInfix

/-- The slice ends below the newest tracked sequence. -/
theorem exists_gt_of_mem_sequences {p : Planting} (hp : p.window.Pairwise (· < ·)) {m : ℤ}
    (hm : m ∈ p.sequences) : ∃ newer ∈ p.window, m < newer := by
  rw [Planting.sequences] at hm
  split at hm
  · cases hm
  · rename_i hmany
    obtain ⟨i, hi, rfl⟩ := List.mem_iff_getElem.mp hm
    rw [gapSeqs, List.length_take, List.length_drop] at hi
    have hstart : p.draws.startPick % (p.window.length - 3) < p.window.length - 3 :=
      Nat.mod_lt _ (by omega)
    have hlength := p.draws.gapLength_bounds.2
    have hnext : p.draws.startPick % (p.window.length - 3) + i + 1 < p.window.length := by omega
    refine ⟨p.window[p.draws.startPick % (p.window.length - 3) + i + 1],
      List.getElem_mem hnext, ?_⟩
    simp only [gapSeqs, List.getElem_take, List.getElem_drop]
    exact List.pairwise_iff_getElem.mp hp _ _ _ _ (by omega)

/-- Where nothing tracked is below one, only a planting that takes the first sequence deletes
it. -/
theorem one_mem_sequences_iff {p : Planting} (hp : p.window.Pairwise (· < ·))
    (hpos : ∀ m ∈ p.window, 1 ≤ m) : 1 ∈ p.sequences ↔ p.TakesFirst := by
  constructor
  · intro h
    rw [Planting.sequences] at h
    split at h
    · cases h
    · rename_i hmany
      have hdrop : (1 : ℤ) ∈ p.window.drop p.start := List.mem_of_mem_take h
      obtain ⟨i, hi, hone⟩ := List.mem_iff_getElem.mp hdrop
      rw [List.getElem_drop] at hone
      -- everything before it in the window would be below one
      have hfirst : p.start + i = 0 := by
        by_contra hne
        rw [List.length_drop] at hi
        have hlt := List.pairwise_iff_getElem.mp hp 0 (p.start + i) (by omega) (by omega)
          (by omega)
        have := hpos _ (List.getElem_mem (show 0 < p.window.length by omega))
        omega
      refine ⟨by omega, ?_, by omega⟩
      rw [List.head?_eq_getElem?, List.getElem?_eq_getElem (by omega), ← hone]
      simp only [hfirst]
  · rintro ⟨hmany, hhead, hstart⟩
    rw [Planting.sequences, if_neg (by omega), gapSeqs]
    rw [Planting.start] at hstart
    rw [hstart, List.drop_zero]
    cases hwindow : p.window with
    | nil => simp [hwindow] at hhead
    | cons first rest =>
      rw [hwindow] at hhead
      cases hhead
      have := p.draws.gapLength_bounds.1
      rw [← Nat.succ_pred_eq_of_pos (show 0 < p.draws.gapLength by omega), List.take_succ_cons]
      exact List.mem_cons_self

/-! ## The plantings of a run -/

section Run

variable {config : SimulatorConfig} {events : List Event} {symbol : Str}

/-- What a planting picks from is the last fifty the run has consumed when it comes to it. -/
theorem window_isInfix (hinc : (consumed events symbol).Pairwise (· < ·)) {p : Planting}
    (hp : p ∈ plantings config events) (hsym : p.tick.symbol = symbol) :
    p.window <:+: consumed events symbol := by
  obtain ⟨before, tick, draws, after, rfl, -, rfl⟩ := mem_plantings hp
  subst hsym
  have hprefix : consumed before tick.symbol <+:
      consumed (before ++ .filled tick draws :: after) tick.symbol := by
    rw [consumed, consumed, seenTicks_append, numbers_append]
    exact List.prefix_append _ _
  have hlast : trackedAfter before tick.symbol <:+ consumed before tick.symbol := by
    rw [trackedAfter_eq, lastFifty]
    exact List.drop_suffix _ _
  have hpart := hlast.isInfix.trans hprefix.isInfix
  have hsorted : Frame.sortBy id (trackedAfter before tick.symbol)
      = trackedAfter before tick.symbol :=
    Frame.sortBy_eq_self ((hinc.sublist hpart.sublist).imp fun h ↦ h.le)
  show Frame.sortBy id (trackedAfter before tick.symbol) <:+: _
  rw [hsorted]
  exact hpart

theorem deleted_iff {tickStore : TickStore} {m : ℤ} :
    Deleted tickStore (survivors (plantings config events) tickStore) symbol m ↔
      m ∈ tickStore.sequencesOf symbol ∧
        ∃ p ∈ plantings config events, p.tick.symbol = symbol ∧ m ∈ p.sequences := by
  refine and_congr_right fun hm ↦ ?_
  simp only [TickStore.mem_sequencesOf, mem_survivors, Planting.Deletes]
  constructor
  · intro h
    by_contra hnone
    obtain ⟨row, hrow, hsym, hseq⟩ := TickStore.mem_sequencesOf.mp hm
    refine h ⟨row, ⟨hrow, fun p hp hdel ↦ hnone ⟨p, hp, ?_, ?_⟩⟩, hsym, hseq⟩
    · rw [← hdel.1, hsym]
    · rw [← hseq]
      exact hdel.2
  · rintro ⟨p, hp, hsym, hmem⟩ ⟨row, ⟨-, hkept⟩, hrow, rfl⟩
    exact hkept p hp ⟨hrow.trans hsym.symm, hmem⟩

theorem mem_of_mem_survivors {ps : List Planting} {tickStore : TickStore} {m : ℤ}
    (hm : m ∈ (survivors ps tickStore).sequencesOf symbol) : m ∈ tickStore.sequencesOf symbol := by
  obtain ⟨row, hrow, hsym, hseq⟩ := TickStore.mem_sequencesOf.mp hm
  exact TickStore.mem_sequencesOf.mpr ⟨row, (mem_survivors.mp hrow).1, hsym, hseq⟩

/-- What is deleted is in the slice of a planting that deleted something for its symbol. -/
theorem exists_mem_removals_of_deleted {tickStore : TickStore} {m : ℤ}
    (hm : Deleted tickStore (survivors (plantings config events) tickStore) symbol m) :
    ∃ d ∈ (removals (plantings config events) tickStore).filter fun d ↦ d.1.tick.symbol = symbol,
      m ∈ d.1.sequences ∧ m ∈ d.2 := by
  obtain ⟨hstored, p, hp, hsym, hmem⟩ := deleted_iff.mp hm
  obtain ⟨row, hrow, hrowsym, rfl⟩ := TickStore.mem_sequencesOf.mp hstored
  obtain ⟨d, hd, hdel, hin⟩ := exists_mem_removals hrow hp ⟨hrowsym.trans hsym.symm, hmem⟩
  refine ⟨d, List.mem_filter.mpr ⟨hd, ?_⟩, hdel.2, hin⟩
  rw [decide_eq_true_eq, ← hdel.1, hrowsym]

/-- Between two sequences that are left, only deleted ones are missing. -/
theorem deleted_of_between {tickStore : TickStore} (hover : OverStored tickStore events) {m : ℤ}
    (hm : Gaps.Between
      (· ∈ (survivors (plantings config events) tickStore).sequencesOf symbol) m) :
    Deleted tickStore (survivors (plantings config events) tickStore) symbol m := by
  obtain ⟨n, hn⟩ := hover.stored symbol
  obtain ⟨hgone, ⟨a, ha, ham⟩, b, hb, hmb⟩ := hm
  have hlo := ((hn a).mp (mem_of_mem_survivors ha)).1
  have hhi := ((hn b).mp (mem_of_mem_survivors hb)).2
  exact ⟨(hn m).mpr (by omega), hgone⟩

/-- The last of an increasing list is its largest. -/
theorem le_of_getLast?_eq {l : List ℤ} (hinc : l.Pairwise (· < ·)) {newest : ℤ}
    (hlast : l.getLast? = some newest) : ∀ m ∈ l, m ≤ newest := by
  obtain ⟨init, rfl⟩ := List.getLast?_eq_some_iff.mp hlast
  intro m hm
  rcases List.mem_append.mp hm with hm | hm
  · exact ((List.pairwise_append.mp hinc).2.2 m hm newest List.mem_cons_self).le
  · exact (List.mem_singleton.mp hm).le

/-- What a planting deletes is older than the newest sequence consumed. -/
theorem lt_newest_of_mem_sequences (hinc : (consumed events symbol).Pairwise (· < ·)) {newest : ℤ}
    (hlast : (consumed events symbol).getLast? = some newest) {p : Planting}
    (hp : p ∈ plantings config events) (hsym : p.tick.symbol = symbol) {m : ℤ}
    (hm : m ∈ p.sequences) : m < newest := by
  have hwindow := window_isInfix hinc hp hsym
  obtain ⟨newer, hnewer, hlt⟩ := exists_gt_of_mem_sequences (hinc.sublist hwindow.sublist) hm
  exact hlt.trans_le (le_of_getLast?_eq hinc hlast newer (hwindow.subset hnewer))

/-- The newest sequence consumed is never deleted. -/
theorem exists_survivor_gt {tickStore : TickStore} (hover : OverStored tickStore events)
    (hinc : (consumed events symbol).Pairwise (· < ·)) {m : ℤ}
    (hm : Deleted tickStore (survivors (plantings config events) tickStore) symbol m) :
    ∃ newest ∈ (survivors (plantings config events) tickStore).sequencesOf symbol, m < newest := by
  obtain ⟨-, p, hp, hsym, hmem⟩ := deleted_iff.mp hm
  have hc : m ∈ consumed events symbol :=
    (window_isInfix hinc hp hsym).subset (p.sequences_isInfix.subset hmem)
  obtain ⟨newest, hlast⟩ : ∃ newest, (consumed events symbol).getLast? = some newest :=
    ⟨_, List.getLast?_eq_some_getLast (List.ne_nil_of_mem hc)⟩
  have hnewest : newest ∈ consumed events symbol := List.mem_of_getLast? hlast
  refine ⟨newest, ?_, lt_newest_of_mem_sequences hinc hlast hp hsym hmem⟩
  by_contra hgone
  obtain ⟨-, q, hq, hqsym, hqmem⟩ := deleted_iff.mp ⟨hover.consumed symbol newest hnewest, hgone⟩
  exact lt_irrefl _ (lt_newest_of_mem_sequences hinc hlast hq hqsym hqmem)

end Run

/-! ## What is declared missing -/

section Missing

variable (r : Reconciler) (config : SimulatorConfig) (maxFills maxIdleReads : Option ℤ)
  (reads : List (List (Tick × Draws))) (tickStore : TickStore) (bookStore : BookStore)

/-- Ticks stored and consumed as they were numbered. -/
theorem OverStored.of_numbered {ticks : List Tick} {events : List Event} (worker : Option Str)
    (hticks : Numbered Tick.symbol Tick.sequence ticks) (hseen : seenTicks events = ticks) :
    OverStored (ticks.map fun tick ↦ TickRow.ofTick tick worker) events := by
  have hmem : ∀ symbol m, m ∈ (show TickStore from
      ticks.map fun tick ↦ TickRow.ofTick tick worker).sequencesOf symbol ↔
        ∃ tick ∈ ticks, tick.symbol = symbol ∧ tick.sequence = m := by
    intro symbol m
    rw [TickStore.mem_sequencesOf]
    simp [TickRow.ofTick]
  refine ⟨fun symbol ↦ ⟨count Tick.symbol symbol ticks, fun m ↦ ?_⟩, fun symbol m hm ↦ ?_⟩
  · rw [hmem, hticks.exists_iff]
  · rw [hmem, ← hseen]
    exact mem_consumed.mp hm

theorem run_tickStore :
    (run config maxFills maxIdleReads reads { tickStore, bookStore }).tickStore =
      survivors (plantings config (eventsOf config maxFills maxIdleReads reads)) tickStore := by
  rw [run_eq]
  exact (foldl_stores config _ _).1

/-- The sequence gaps a run logs for a symbol are those of the plantings for it that deleted
something. -/
theorem run_anomaliesOf (symbol : Str) :
    (run config maxFills maxIdleReads reads { tickStore, bookStore }).bookStore.anomaliesOf
        .sequenceGap symbol =
      bookStore.anomaliesOf .sequenceGap symbol ++
        ((removals (plantings config (eventsOf config maxFills maxIdleReads reads))
          tickStore).filter fun d ↦ d.1.tick.symbol = symbol).map gapAnomaly := by
  have hlog := (foldl_stores config (eventsOf config maxFills maxIdleReads reads)
    { tickStore, bookStore }).2
  rw [run_eq, BookStore.anomaliesOf_eq, hlog, List.filter_append, ← BookStore.anomaliesOf_eq,
    List.filter_map]
  rfl

/-- What is deleted is logged. -/
theorem deleted_logged {symbol : Str} {m : ℤ} :
    let final := run config maxFills maxIdleReads reads { tickStore, bookStore }
    Deleted tickStore final.tickStore symbol m → LoggedGap final.bookStore symbol m := by
  intro final hm
  rw [run_tickStore] at hm
  obtain ⟨d, hd, -, hin⟩ := exists_mem_removals_of_deleted hm
  refine ⟨gapAnomaly d, ?_, ?_, ?_⟩
  · rw [run_anomaliesOf]
    exact List.mem_append_right _ (List.mem_map_of_mem hd)
  · obtain ⟨first, hfirst⟩ := Option.isSome_iff_exists.mp (List.isSome_min?_of_mem hin)
    exact ⟨first, hfirst, (List.min?_eq_some_iff.mp hfirst).2 _ hin⟩
  · obtain ⟨last, hlast⟩ := Option.isSome_iff_exists.mp (List.isSome_max?_of_mem hin)
    exact ⟨last, hlast, (List.max?_eq_some_iff.mp hlast).2 _ hin⟩

variable {tickStore} in
/-- A window that covers every tick reads the sequences that are left. -/
theorem reads_iff {ps : List Planting} {start stop : Time}
    (hwindow : ∀ row ∈ tickStore, start - r.tickMatchWindow ≤ row.time ∧
      row.time ≤ stop + r.tickMatchWindow) (symbol : Str) (m : ℤ) :
    r.Reads (survivors ps tickStore) symbol (start, stop) m ↔
      m ∈ (survivors ps tickStore).sequencesOf symbol := by
  rw [TickStore.mem_sequencesOf]
  constructor
  · rintro ⟨row, hrow, hsym, -, -, hseq⟩
    exact ⟨row, hrow, hsym, hseq⟩
  · rintro ⟨row, hrow, hsym, hseq⟩
    obtain ⟨hlo, hhi⟩ := hwindow row (mem_survivors.mp hrow).1
    exact ⟨row, hrow, hsym, hlo, hhi, hseq⟩

/-- Over a window that covers every tick, what is declared missing is what lies between two
sequences that are left. -/
theorem declaredMissing_iff {start stop : Time}
    (hwindow : ∀ row ∈ tickStore, start - r.tickMatchWindow ≤ row.time ∧
      row.time ≤ stop + r.tickMatchWindow) (symbol : Str) (m : ℤ) :
    let final := run config maxFills maxIdleReads reads { tickStore, bookStore }
    DeclaredMissing (r.reconcileSymbol final.tickStore final.bookStore symbol start stop) m ↔
      Gaps.Between (· ∈ (survivors (plantings config
        (eventsOf config maxFills maxIdleReads reads)) tickStore).sequencesOf symbol) m := by
  intro final
  refine (declares_reconcileSymbol_iff r final.tickStore final.bookStore symbol (start, stop)
    m).trans (Gaps.Between.congr (fun x ↦ ?_) m)
  rw [run_tickStore]
  exact reads_iff r hwindow symbol x

/-- **When every planted sequence gap is detected.**  Over a run that consumes the stored ticks in
increasing order, and a window that covers them all, what is deleted is logged; and all of it is
declared missing exactly when no planting for the symbol takes the first sequence there is. -/
theorem deleted_declared_iff (symbol : Str) (start stop : Time)
    (hover : OverStored tickStore (eventsOf config maxFills maxIdleReads reads))
    (hinc : (consumed (eventsOf config maxFills maxIdleReads reads) symbol).Pairwise (· < ·))
    (hwindow : ∀ row ∈ tickStore, start - r.tickMatchWindow ≤ row.time ∧
      row.time ≤ stop + r.tickMatchWindow) :
    let final := run config maxFills maxIdleReads reads { tickStore, bookStore }
    let breaks := r.reconcileSymbol final.tickStore final.bookStore symbol start stop
    (∀ m, Deleted tickStore final.tickStore symbol m → LoggedGap final.bookStore symbol m) ∧
      ((∀ m, Deleted tickStore final.tickStore symbol m → DeclaredMissing breaks m) ↔
        ∀ p ∈ plantings config (eventsOf config maxFills maxIdleReads reads),
          p.tick.symbol = symbol → ¬ p.TakesFirst) := by
  intro final breaks
  set events := eventsOf config maxFills maxIdleReads reads with hevents
  set ps := plantings config events with hps
  have hfinal : final.tickStore = survivors ps tickStore :=
    run_tickStore config maxFills maxIdleReads reads tickStore bookStore
  have hdeclared : ∀ m, DeclaredMissing breaks m ↔
      Gaps.Between (· ∈ (survivors ps tickStore).sequencesOf symbol) m :=
    declaredMissing_iff r config maxFills maxIdleReads reads tickStore bookStore hwindow symbol
  obtain ⟨n, hn⟩ := hover.stored symbol
  have hpos : ∀ p ∈ ps, p.tick.symbol = symbol →
      p.window.Pairwise (· < ·) ∧ ∀ m ∈ p.window, 1 ≤ m := by
    intro p hp hsym
    have hpart := window_isInfix hinc hp hsym
    exact ⟨hinc.sublist hpart.sublist, fun m hm ↦
      ((hn m).mp (hover.consumed symbol m (hpart.subset hm))).1⟩
  refine ⟨fun m ↦ deleted_logged config maxFills maxIdleReads reads tickStore bookStore, ?_⟩
  simp only [hdeclared, hfinal]
  constructor
  · intro hall p hp hsym hfirst
    -- sequence one is deleted, and nothing is below it
    have hone := (one_mem_sequences_iff (hpos p hp hsym).1 (hpos p hp hsym).2).mpr hfirst
    have hstored : 1 ∈ tickStore.sequencesOf symbol := hover.consumed symbol 1
      ((window_isInfix hinc hp hsym).subset (p.sequences_isInfix.subset hone))
    obtain ⟨-, ⟨below, hbelow, hlt⟩, -⟩ := hall 1 (deleted_iff.mpr ⟨hstored, p, hp, hsym, hone⟩)
    have := ((hn below).mp (mem_of_mem_survivors hbelow)).1
    omega
  · intro hnone m hm
    have hone : 1 ∈ (survivors ps tickStore).sequencesOf symbol := by
      by_contra hgone
      have hstored : 1 ∈ tickStore.sequencesOf symbol := by
        have := (hn m).mp hm.1
        exact (hn 1).mpr (by omega)
      obtain ⟨-, p, hp, hsym, hmem⟩ := deleted_iff.mp ⟨hstored, hgone⟩
      exact hnone p hp hsym
        ((one_mem_sequences_iff (hpos p hp hsym).1 (hpos p hp hsym).2).mp hmem)
    have hlt : 1 < m := lt_of_le_of_ne ((hn m).mp hm.1).1 (by rintro rfl; exact hm.2 hone)
    exact ⟨hm.2, ⟨1, hone, hlt⟩, exists_survivor_gt hover hinc hm⟩

/-- **No more gaps are reported than planted.**  Over a run that consumes the stored ticks of the
symbol in order and without omission, the sequence-gap breaks are no more than the sequence gaps
the run logs, and what a break declares missing was deleted. -/
theorem gaps_le_planted (symbol : Str) (start stop : Time)
    (hover : OverStored tickStore (eventsOf config maxFills maxIdleReads reads))
    (hconsecutive :
      Gaps.Consecutive (consumed (eventsOf config maxFills maxIdleReads reads) symbol))
    (hwindow : ∀ row ∈ tickStore, start - r.tickMatchWindow ≤ row.time ∧
      row.time ≤ stop + r.tickMatchWindow) :
    let final := run config maxFills maxIdleReads reads { tickStore, bookStore }
    let breaks := r.reconcileSymbol final.tickStore final.bookStore symbol start stop
    (bookStore.anomaliesOf .sequenceGap symbol).length +
        (breaks.filter fun b ↦ b.breakType = .sequenceGap).length ≤
          (final.bookStore.anomaliesOf .sequenceGap symbol).length ∧
      ∀ m, DeclaredMissing breaks m → Deleted tickStore final.tickStore symbol m := by
  intro final breaks
  set events := eventsOf config maxFills maxIdleReads reads with hevents
  set ps := plantings config events with hps
  have hinc := hconsecutive.pairwise_lt
  have hfinal : final.tickStore = survivors ps tickStore :=
    run_tickStore config maxFills maxIdleReads reads tickStore bookStore
  refine ⟨?_, fun m hm ↦ ?_⟩
  · rw [run_anomaliesOf, List.length_append, List.length_map]
    refine Nat.add_le_add_left ?_ _
    rw [filter_sequenceGap_reconcileSymbol, length_findSequenceGaps]
    have hseqs : ∀ m, m ∈ seqs (final.tickStore.readTicksDf symbol (start - r.tickMatchWindow)
        (stop + r.tickMatchWindow)) ↔ m ∈ (survivors ps tickStore).sequencesOf symbol := by
      intro m
      rw [mem_seqs, ← reads_iff r hwindow symbol m, ← hfinal]
      simp only [Carried, TickStore.mem_readTicksDf, Reads, and_assoc]
    set blocks := ((removals ps tickStore).filter fun d ↦ d.1.tick.symbol = symbol).map
      fun d ↦ d.1.sequences with hblocks
    have hblock : ∀ block ∈ blocks, ∃ p ∈ ps, p.tick.symbol = symbol ∧ block = p.sequences := by
      intro block hblock
      obtain ⟨d, hd, rfl⟩ := List.mem_map.mp hblock
      obtain ⟨hd, hsym⟩ := List.mem_filter.mp hd
      exact ⟨d.1, mem_of_mem_removals hd, of_decide_eq_true hsym, rfl⟩
    rw [← List.length_map fun d : Planting × List ℤ ↦ d.1.sequences, ← hblocks]
    refine Gaps.length_gaps_le (seqs_pairwise_le _) ?_ ?_ ?_
    · intro block hmem
      obtain ⟨p, hp, hsym, rfl⟩ := hblock block hmem
      exact (hconsecutive.of_isInfix
        (p.sequences_isInfix.trans (window_isInfix hinc hp hsym))).ordConnected
    · intro block hmem x hx
      obtain ⟨p, hp, hsym, rfl⟩ := hblock block hmem
      have hconsumed : x ∈ consumed events symbol :=
        (p.sequences_isInfix.trans (window_isInfix hinc hp hsym)).subset hx
      rw [hseqs]
      exact (deleted_iff.mpr ⟨hover.consumed symbol x hconsumed, p, hp, hsym, hx⟩).2
    · intro q hq m hqm hmq
      obtain ⟨hfirst, hsecond⟩ := Gaps.mem_of_mem_pairwise hq
      have hbetween := (Gaps.exists_pairwise_iff (seqs_pairwise_le _) m).mp ⟨q, hq, hqm, hmq⟩
      obtain ⟨d, hd, hmem, -⟩ := exists_mem_removals_of_deleted
        (deleted_of_between hover ((Gaps.Between.congr hseqs m).mp hbetween))
      exact ⟨d.1.sequences, List.mem_map_of_mem hd, hmem⟩
  · rw [hfinal]
    exact deleted_of_between hover
      ((declaredMissing_iff r config maxFills maxIdleReads reads tickStore bookStore hwindow
        symbol m).mp hm)

end Missing

/-! ### One gap among seven ticks -/

/-- The `n`-th tick of a quiet market. -/
def tickNo (n : ℤ) : Tick := btcTick n (seconds n)

/-- Draws that do not trade. -/
def quietDraws : Draws where
  tradeRoll := 1
  quantity := 1 / 40
  quantity_bounds := by norm_num
  fillId := "f1".toList
  anomalyRoll := 0
  anomalyChoice := .sequenceGap
  shift := -15
  shift_eq := .inl rfl
  driftSize := 1 / 25
  driftSize_bounds := by norm_num
  driftSign := 1
  driftSign_eq := .inl rfl
  startPick := 0
  gapLength := 2
  gapLength_bounds := by norm_num

/-- Draws that trade and plant a gap of two. -/
def gapDraws (startPick : ℕ) : Draws := { quietDraws with tradeRoll := 0, startPick }

theorem numbered_tickNo (n : ℕ) :
    Numbered Tick.symbol Tick.sequence ((oneTo n).map tickNo) := by
  induction n with
  | zero => exact Numbered.nil
  | succ n ih =>
    rw [oneTo_succ, List.map_append]
    refine ih.concat ?_
    have hcount : count Tick.symbol "BTC-USD".toList ((oneTo n).map tickNo) = n := by
      rw [count, List.countP_eq_length.mpr, List.length_map, length_oneTo]
      intro tick htick
      obtain ⟨m, -, rfl⟩ := List.mem_map.mp htick
      rfl
    show (n : ℤ) + 1 = count Tick.symbol "BTC-USD".toList ((oneTo n).map tickNo) + 1
    rw [hcount]

def sevenTicks : TickStore := ((oneTo 7).map tickNo).map fun tick ↦ TickRow.ofTick tick none

/-- One read of the seven ticks, the last of which is answered with a fill. -/
def sevenReads (startPick : ℕ) : List (List (Tick × Draws)) :=
  [(oneTo 6).map (fun n ↦ (tickNo n, quietDraws)) ++ [(tickNo 7, gapDraws startPick)]]

/-- A slice that starts at the second tracked sequence is declared missing. -/
theorem deleted_declared_second :
    let final := run {} none none (sevenReads 1) { tickStore := sevenTicks, bookStore := {} }
    Deleted sevenTicks final.tickStore "BTC-USD".toList 2 ∧
      ∀ m, Deleted sevenTicks final.tickStore "BTC-USD".toList m →
        DeclaredMissing (reconcileSymbol {} final.tickStore final.bookStore "BTC-USD".toList 0
          (seconds 10)) m := by
  refine ⟨by decide +kernel, (deleted_declared_iff {} {} none none (sevenReads 1) sevenTicks {}
    "BTC-USD".toList 0 (seconds 10) (.of_numbered none (numbered_tickNo 7) (by decide +kernel)) ?_
    (by decide +kernel)).2.mpr ?_⟩
  · decide +kernel
  · decide +kernel

/-- A slice that starts at the first tracked sequence is not. -/
theorem first_deleted_not_declared :
    let final := run {} none none (sevenReads 0) { tickStore := sevenTicks, bookStore := {} }
    OverStored sevenTicks (eventsOf {} none none (sevenReads 0)) ∧
      (consumed (eventsOf {} none none (sevenReads 0)) "BTC-USD".toList).Pairwise (· < ·) ∧
        (∀ row ∈ sevenTicks, 0 ≤ row.time ∧ row.time ≤ seconds 10) ∧
          Deleted sevenTicks final.tickStore "BTC-USD".toList 1 ∧
            LoggedGap final.bookStore "BTC-USD".toList 1 ∧
              ¬ DeclaredMissing (reconcileSymbol {} final.tickStore final.bookStore
                "BTC-USD".toList 0 (seconds 10)) 1 := by
  intro final
  have hdeleted : Deleted sevenTicks final.tickStore "BTC-USD".toList 1 := by decide +kernel
  refine ⟨.of_numbered none (numbered_tickNo 7) (by decide +kernel), by decide +kernel, by decide,
    hdeleted, deleted_logged {} none none (sevenReads 0) sevenTicks {} hdeleted, ?_⟩
  have hnone : reconcileSymbol {} final.tickStore final.bookStore "BTC-USD".toList 0 (seconds 10)
      = [] := by decide +kernel
  rw [hnone]
  rintro ⟨b, hb, -⟩
  cases hb

/-- The gap planted is the one gap reported. -/
theorem gaps_le_planted_of_one_gap :
    let final := run {} none none (sevenReads 1) { tickStore := sevenTicks, bookStore := {} }
    ((reconcileSymbol {} final.tickStore final.bookStore "BTC-USD".toList 0
        (seconds 10)).filter fun b ↦ b.breakType = .sequenceGap).length ≤
      (final.bookStore.anomaliesOf .sequenceGap "BTC-USD".toList).length := by
  intro final
  refine (Nat.zero_add _).symm.trans_le (gaps_le_planted {} {} none none (sevenReads 1) sevenTicks
    {} "BTC-USD".toList 0 (seconds 10) (.of_numbered none (numbered_tickNo 7) (by decide +kernel))
    ?_ (by decide +kernel)).1
  show Gaps.Consecutive (consumed _ _)
  decide +kernel

end Simulator

end PostTrade
