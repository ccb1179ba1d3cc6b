import PostTrade.Simulate.UnmatchedFills
import PostTrade.Lib.Numbering

/-!
# The sequence of a fill over several processes

A fill carries the next number of a counter its simulator keeps for the symbol, and the counter of
a new process starts at one again, whatever the book holds.  `numbers_bookAfter` reads the
sequences of a symbol off the book: every process that ran appends a count from one.  So they are in
the order the fills were written exactly when at most one process traded the symbol
(`sequences_increase_iff`).

The processes run one after the other on one book.  What each reads, and the tick store it finds,
is arbitrary.
-/

set_option autoImplicit false

namespace PostTrade

namespace Simulator

open Numbering

/-- One process: its settings, its limits, what its reads return, and the tick store it finds. -/
structure Process where
  config : SimulatorConfig
  maxFills : Option ℤ
  maxIdleReads : Option ℤ
  reads : List (List (Tick × Draws))
  tickStore : TickStore

namespace Process

/-- The events of the process. -/
def events (p : Process) : List Event := eventsOf p.config p.maxFills p.maxIdleReads p.reads

/-- The fill ids the process draws from. -/
def fillIds (p : Process) : List Str := p.reads.flatten.map fun m ↦ m.2.fillId

/-- How many fills of a symbol the process writes. -/
def tradeCount (p : Process) (symbol : Str) : ℕ :=
  (trades p.events).countP fun t ↦ t.1.symbol = symbol

/-- The book after the process. -/
def runOn (book : BookStore) (p : Process) : BookStore :=
  (run p.config p.maxFills p.maxIdleReads p.reads
    { tickStore := p.tickStore, bookStore := book }).bookStore

end Process

/-- The book after processes that ran one after the other, from an empty one. -/
def bookAfter (ps : List Process) : BookStore := ps.foldl Process.runOn {}

/-- The fills a simulator has added to a book are numbered, and its counters are in step. -/
structure NumberedSince (old : List Fill) (s : Simulator) (new : List Fill) : Prop where
  fills : s.bookStore.fills = old ++ new
  numbered : Numbered Fill.symbol Fill.sequence new
  counts : ∀ symbol, s.fillSequences symbol = count Fill.symbol symbol new + 1

theorem NumberedSince.generateFill {config : SimulatorConfig} {draws : Draws} {tick : Tick}
    {old new : List Fill} {s : Simulator} (h : NumberedSince old s new)
    (hfresh : draws.fillId ∉ s.bookStore.fills.map Fill.fillId) :
    NumberedSince old (s.generateFill config draws tick)
      (new ++ [s.newFill config draws tick]) := by
  obtain ⟨hfills, -, hseqs, -⟩ := generateFill_cases config draws tick hfresh
  refine ⟨?_, h.numbered.concat ?_, fun symbol ↦ ?_⟩
  · rw [hfills, h.fills, List.append_assoc]
  · rw [newFill_sequence, newFill_symbol, h.counts]
  · rw [hseqs, count_append, count_singleton, newFill_symbol]
    by_cases hsym : tick.symbol = symbol
    · subst hsym
      rw [Function.update_self, h.counts, if_pos rfl]
      omega
    · rw [Function.update_of_ne (Ne.symm hsym), h.counts, if_neg hsym]
      omega

namespace Process

variable {book : BookStore} {p : Process}

theorem nodup_filledIds (hnd : p.fillIds.Nodup) : (filledIds p.events).Nodup :=
  (eventsOf_spec p.config p.maxFills p.maxIdleReads p.reads).filled.nodup hnd

theorem mem_fillIds {id : Str} (h : id ∈ filledIds p.events) : id ∈ p.fillIds :=
  (eventsOf_spec p.config p.maxFills p.maxIdleReads p.reads).filled.subset h

/-- A process adds its fills to the book, numbered from one for every symbol. -/
theorem runOn_spec (hnd : p.fillIds.Nodup)
    (hfresh : ∀ id ∈ p.fillIds, id ∉ book.fills.map Fill.fillId) :
    ∃ new, (runOn book p).fills = book.fills ++ new ∧ Numbered Fill.symbol Fill.sequence new ∧
      new.map fillKey = (trades p.events).map (tradeKey p.config) := by
  have hrun := run_eq p.config p.maxFills p.maxIdleReads p.reads p.tickStore book
  have hfresh' : ∀ id ∈ filledIds p.events, id ∉ book.fills.map Fill.fillId :=
    fun id hid ↦ hfresh id (mem_fillIds hid)
  have hstart : NumberedSince book.fills { tickStore := p.tickStore, bookStore := book } [] :=
    ⟨(List.append_nil _).symm, Numbered.nil, fun _ ↦ rfl⟩
  obtain ⟨new, hnew⟩ : ∃ new, NumberedSince book.fills
      (p.events.foldl (Event.apply p.config) { tickStore := p.tickStore, bookStore := book }) new :=
    foldl_invariant (P := fun s ↦ ∃ new, NumberedSince book.fills s new)
      (fun s tick ⟨new, h⟩ ↦ ⟨new, h.fills, h.numbered, h.counts⟩)
      (fun s tick draws ⟨new, h⟩ hid ↦ ⟨_, h.generateFill hid⟩)
      p.events _ ⟨[], hstart⟩ (nodup_filledIds hnd) hfresh'
  have hbook := (foldl_book p.config p.events { tickStore := p.tickStore, bookStore := book }
    (nodup_filledIds hnd) hfresh').1
  rw [hnew.fills, List.map_append, List.append_cancel_left_eq] at hbook
  refine ⟨new, ?_, hnew.numbered, hbook⟩
  rw [runOn, hrun]
  exact hnew.fills

/-- What a process does to the sequences of a symbol. -/
theorem numbers_runOn (hnd : p.fillIds.Nodup)
    (hfresh : ∀ id ∈ p.fillIds, id ∉ book.fills.map Fill.fillId) (symbol : Str) :
    numbers Fill.symbol Fill.sequence symbol (runOn book p).fills =
      numbers Fill.symbol Fill.sequence symbol book.fills ++ oneTo (p.tradeCount symbol) := by
  obtain ⟨new, hfills, hnumbered, hkeys⟩ := runOn_spec hnd hfresh
  have hcount : count Fill.symbol symbol new = p.tradeCount symbol := by
    have hleft : (new.map fillKey).countP (fun k ↦ k.2.1 = symbol) = count Fill.symbol symbol new :=
      List.countP_map
    have hright : ((trades p.events).map (tradeKey p.config)).countP (fun k ↦ k.2.1 = symbol)
        = p.tradeCount symbol := List.countP_map
    rw [← hleft, hkeys, hright]
  rw [hfills, numbers_append, hnumbered symbol, hcount]

/-- Ids that are no id of the process stay fresh. -/
theorem fresh_runOn (hnd : p.fillIds.Nodup)
    (hfresh : ∀ id ∈ p.fillIds, id ∉ book.fills.map Fill.fillId) {id : Str}
    (hid : id ∉ p.fillIds) (hbook : id ∉ book.fills.map Fill.fillId) :
    id ∉ (runOn book p).fills.map Fill.fillId := by
  obtain ⟨new, hfills, -, hkeys⟩ := runOn_spec hnd hfresh
  have hids : new.map Fill.fillId = filledIds p.events := by
    rw [← map_trades]
    have := congrArg (List.map Prod.fst) hkeys
    rw [List.map_map, List.map_map] at this
    exact this
  rw [hfills, List.map_append, hids, List.mem_append, not_or]
  exact ⟨hbook, fun hmem ↦ hid (mem_fillIds hmem)⟩

end Process

/-- **The sequences of a symbol in the book**: every process appends a count from one. -/
theorem numbers_bookAfter {ps : List Process} (hnd : (ps.flatMap Process.fillIds).Nodup)
    (symbol : Str) :
    numbers Fill.symbol Fill.sequence symbol (bookAfter ps).fills =
      (ps.map fun p ↦ p.tradeCount symbol).flatMap oneTo := by
  have key : ∀ (ps : List Process) (book : BookStore), (ps.flatMap Process.fillIds).Nodup →
      (∀ id ∈ ps.flatMap Process.fillIds, id ∉ book.fills.map Fill.fillId) →
        numbers Fill.symbol Fill.sequence symbol (ps.foldl Process.runOn book).fills =
          numbers Fill.symbol Fill.sequence symbol book.fills ++
            (ps.map fun p ↦ p.tradeCount symbol).flatMap oneTo := by
    intro ps
    induction ps with
    | nil => exact fun book _ _ ↦ (List.append_nil _).symm
    | cons p ps ih =>
      intro book hnd hfresh
      rw [List.flatMap_cons, List.nodup_append] at hnd
      obtain ⟨hp, hps, hapart⟩ := hnd
      have hfreshp : ∀ id ∈ p.fillIds, id ∉ book.fills.map Fill.fillId :=
        fun id hid ↦ hfresh id (List.mem_append_left _ hid)
      have hfreshps : ∀ id ∈ ps.flatMap Process.fillIds,
          id ∉ (Process.runOn book p).fills.map Fill.fillId := fun id hid ↦
        Process.fresh_runOn hp hfreshp (fun hidp ↦ hapart id hidp id hid rfl)
          (hfresh id (List.mem_append_right _ hid))
      rw [List.foldl_cons, ih _ hps hfreshps, Process.numbers_runOn hp hfreshp, List.append_assoc]
      rfl
  rw [bookAfter, key ps {} hnd (by simp)]
  rfl

/-- **When fill sequences are the execution order.**  However many processes ran one after the
other, the sequences of a symbol's fills increase in the order they were written exactly when at
most one of the processes traded the symbol. -/
theorem sequences_increase_iff {ps : List Process} (hnd : (ps.flatMap Process.fillIds).Nodup)
    (symbol : Str) :
    (((bookAfter ps).fillsOf symbol).map Fill.sequence).Pairwise (· < ·) ↔
      (ps.filter fun p ↦ 0 < p.tradeCount symbol).length ≤ 1 := by
  show (numbers Fill.symbol Fill.sequence symbol (bookAfter ps).fills).Pairwise (· < ·) ↔ _
  rw [numbers_bookAfter hnd, pairwise_flatMap_oneTo_iff, List.filter_map, List.length_map]
  rfl

/-! ### A restart -/

/-- A process that trades the `n`-th tick. -/
def tradingProcess (n : ℤ) (fillId : Str) : Process where
  config := {}
  maxFills := none
  maxIdleReads := none
  reads := [[(tickAtMinute n n, { driftDraws with anomalyRoll := 1, fillId })]]
  tickStore := [TickRow.ofTick (tickAtMinute n n) none]

/-- One process numbers its fills in order. -/
theorem sequences_increase_of_one_process :
    (((bookAfter [tradingProcess 1 "f1".toList]).fillsOf "BTC-USD".toList).map
      Fill.sequence).Pairwise (· < ·) :=
  (sequences_increase_iff (by decide) "BTC-USD".toList).mpr (by decide +kernel)

/-- After a restart the next fill of the symbol is numbered one again. -/
theorem restart_repeats_sequence :
    let ps := [tradingProcess 1 "f1".toList, tradingProcess 2 "f2".toList]
    (ps.flatMap Process.fillIds).Nodup ∧
      ((bookAfter ps).fillsOf "BTC-USD".toList).map (fun f ↦ (f.fillId, f.sequence))
        = [("f1".toList, 1), ("f2".toList, 1)] ∧
      ¬ (((bookAfter ps).fillsOf "BTC-USD".toList).map Fill.sequence).Pairwise (· < ·) := by
  refine ⟨?_, ?_, ?_⟩
  · decide
  · decide +kernel
  · decide +kernel

end Simulator

end PostTrade
