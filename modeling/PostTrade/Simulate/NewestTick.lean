import PostTrade.Simulate.PlantedGaps

/-!
# The newest tick is never deleted

The simulator keeps the last fifty sequences of a symbol and plants a gap by deleting a slice of
one to three of them.  The bounds it draws the slice from keep it off the end of the list, so the
newest tick it has seen bounds every gap it plants.

`newest_tick_kept` says this of every moment of a run: after any of its events.
-/

set_option autoImplicit false

namespace PostTrade

namespace Simulator

open Numbering

variable {config : SimulatorConfig}

/-- Fills leave what is tracked alone. -/
theorem foldl_recentSequences (events : List Event) (s : Simulator) :
    (events.foldl (Event.apply config) s).recentSequences =
      (seenTicks events).foldl track s.recentSequences := by
  induction events generalizing s with
  | nil => rfl
  | cons event rest ih =>
    rw [List.foldl_cons, ih]
    cases event with
    | seen tick => rfl
    | filled tick draws =>
      rw [Event.apply, (generateFill_stores config draws tick s).1]
      rfl

theorem length_lastFifty (l : List ℤ) : (lastFifty l).length = min 50 l.length := by
  rw [lastFifty, List.length_drop]
  omega

/-- A slice of one to three entries of the list that ends before its last one, or nothing where the
list has fewer than six. -/
def ShortSlice (tracked sequences : List ℤ) : Prop :=
  (tracked.length < 6 ∧ sequences = []) ∨
    ∃ start length, 1 ≤ length ∧ length ≤ 3 ∧ start + length < tracked.length ∧
      sequences = (tracked.drop start).take length

/-- The draws keep the slice off the end of the window. -/
theorem shortSlice_sequences (p : Planting) : ShortSlice p.window p.sequences := by
  rw [Planting.sequences]
  split
  · rename_i hfew
    exact .inl ⟨hfew, rfl⟩
  · rename_i hmany
    have hstart : p.draws.startPick % (p.window.length - 3) < p.window.length - 3 :=
      Nat.mod_lt _ (by omega)
    obtain ⟨hpos, hthree⟩ := p.draws.gapLength_bounds
    exact .inr ⟨_, p.draws.gapLength, hpos, hthree, by omega, rfl⟩

/-- **The newest tick is never deleted.**  After any events of a run that consumes increasing
sequences: what is tracked of a symbol is the last fifty consumed, or all if there are fewer; a gap
planted then deletes a short slice of it; and nothing planted so far deletes the newest sequence
consumed, which is the largest. -/
theorem newest_tick_kept (config : SimulatorConfig) (maxFills maxIdleReads : Option ℤ)
    (reads : List (List (Tick × Draws))) (tickStore : TickStore) (bookStore : BookStore)
    (hinc : ∀ symbol, (consumed (eventsOf config maxFills maxIdleReads reads) symbol).Pairwise
      (· < ·))
    {before after : List Event}
    (hevents : eventsOf config maxFills maxIdleReads reads = before ++ after) (symbol : Str) :
    let s := before.foldl (Event.apply config) { tickStore, bookStore }
    s.recentSequences symbol <:+ consumed before symbol ∧
      (s.recentSequences symbol).length = min 50 (consumed before symbol).length ∧
      (∀ tick draws, tick.symbol = symbol →
        ShortSlice (s.recentSequences symbol) (planting s.recentSequences tick draws).sequences) ∧
      ∀ newest, (consumed before symbol).getLast? = some newest →
        (∀ m ∈ consumed before symbol, m ≤ newest) ∧
          (∀ p ∈ plantings config before, p.tick.symbol = symbol → newest ∉ p.sequences) ∧
            ¬ Deleted tickStore s.tickStore symbol newest := by
  intro s
  have hbefore : (consumed before symbol).Pairwise (· < ·) := by
    have hall := hinc symbol
    rw [hevents, consumed, seenTicks_append, numbers_append] at hall
    exact hall.sublist (List.sublist_append_left _ _)
  have htracked : s.recentSequences symbol = lastFifty (consumed before symbol) := by
    rw [show s.recentSequences = trackedAfter before from foldl_recentSequences before _]
    exact trackedAfter_eq before symbol
  have hsuffix : s.recentSequences symbol <:+ consumed before symbol := by
    rw [htracked, lastFifty]
    exact List.drop_suffix _ _
  refine ⟨hsuffix, by rw [htracked, length_lastFifty], ?_, ?_⟩
  · intro tick draws hsym
    -- what is tracked is in order already, so sorting it changes nothing
    have hsorted : (planting s.recentSequences tick draws).window = s.recentSequences symbol := by
      rw [planting, hsym]
      exact Frame.sortBy_eq_self ((hbefore.sublist hsuffix.sublist).imp fun h ↦ h.le)
    rw [← hsorted]
    exact shortSlice_sequences _
  · intro newest hlast
    have hkept : ∀ p ∈ plantings config before, p.tick.symbol = symbol → newest ∉ p.sequences := by
      intro p hp hsym hmem
      exact lt_irrefl _ (lt_newest_of_mem_sequences hbefore hlast hp hsym hmem)
    refine ⟨le_of_getLast?_eq hbefore hlast, hkept, fun hdeleted ↦ ?_⟩
    have hstore : s.tickStore = survivors (plantings config before) tickStore :=
      (foldl_stores config before { tickStore, bookStore }).1
    rw [hstore, deleted_iff] at hdeleted
    obtain ⟨-, p, hp, hsym, hmem⟩ := hdeleted
    exact hkept p hp hsym hmem

/-- Seven ticks and a planted gap of two: tick seven is still stored. -/
theorem seventh_tick_kept :
    ¬ Deleted sevenTicks (run {} none none (sevenReads 1)
      { tickStore := sevenTicks, bookStore := {} }).tickStore "BTC-USD".toList 7 := by
  have hseen : ((seenTicks (eventsOf {} none none (sevenReads 1))).map Tick.sequence).Pairwise
      (· < ·) := by decide +kernel
  have hlast : (consumed (eventsOf {} none none (sevenReads 1)) "BTC-USD".toList).getLast? =
      some 7 := by decide +kernel
  rw [run_eq]
  exact ((newest_tick_kept {} none none (sevenReads 1) sevenTicks {}
    (fun symbol ↦ hseen.sublist (List.filter_sublist.map Tick.sequence))
    (List.append_nil _).symm "BTC-USD".toList).2.2.2 7 hlast).2.2

end Simulator

end PostTrade
