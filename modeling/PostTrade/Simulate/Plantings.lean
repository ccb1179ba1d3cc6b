import PostTrade.Simulate.TradeBookSimulator
import PostTrade.Lib.Numbering

/-!
# What a run deletes

The simulator deletes ticks only when it plants a sequence gap, and which ones is decided by the
ticks it has tracked and by what it draws: `plantings` reads the plantings of a run off its events,
without the stores.  `foldl_stores` says what is left in the store after them, and what
the run logs: the plantings that found something to delete.

The tracked sequences of a symbol are the last fifty it has seen (`trackedAfter_eq`).
-/

set_option autoImplicit false

namespace PostTrade

namespace Simulator

open Numbering

/-! ## What is tracked -/

/-- The last fifty. -/
def lastFifty (l : List ℤ) : List ℤ := l.drop (l.length - 50)

/-- `_track_sequence`, on the tracked sequences alone. -/
def track (recent : Str → List ℤ) (tick : Tick) : Str → List ℤ :=
  Function.update recent tick.symbol (lastFifty (recent tick.symbol ++ [tick.sequence]))

/-- What is tracked after the events of a new simulator. -/
def trackedAfter (events : List Event) : Str → List ℤ :=
  (seenTicks events).foldl track fun _ ↦ []

theorem lastFifty_lastFifty_append (l : List ℤ) (x : ℤ) :
    lastFifty (lastFifty l ++ [x]) = lastFifty (l ++ [x]) := by
  rw [lastFifty, lastFifty, lastFifty, List.length_append, List.length_append, List.length_drop,
    List.length_singleton]
  by_cases h : l.length < 50
  · rw [Nat.sub_eq_zero_of_le h.le, List.drop_zero, Nat.sub_zero]
  · rw [List.drop_append_of_le_length (by rw [List.length_drop]; omega), List.drop_drop,
      List.drop_append_of_le_length (by omega)]
    congr 2
    omega

/-- **The tracked sequences of a symbol are the last fifty seen.** -/
theorem trackedAfter_eq (events : List Event) (symbol : Str) :
    trackedAfter events symbol =
      lastFifty (numbers Tick.symbol Tick.sequence symbol (seenTicks events)) := by
  rw [trackedAfter]
  induction seenTicks events using List.reverseRecOn with
  | nil => rfl
  | append_singleton ticks tick ih =>
    rw [List.foldl_append, List.foldl_cons, List.foldl_nil, track, numbers_append,
      numbers_singleton]
    by_cases h : tick.symbol = symbol
    · subst h
      rw [Function.update_self, ih, lastFifty_lastFifty_append, if_pos rfl]
    · rw [Function.update_of_ne (Ne.symm h), ih, if_neg h, List.append_nil]

/-! ## Plantings -/

/-- A sequence gap to be planted at a tick: the tracked sequences of its symbol in order, and the
draws. -/
structure Planting where
  tick : Tick
  window : List ℤ
  draws : Draws

/-- `start_idx`. -/
def Planting.start (p : Planting) : ℕ := p.draws.startPick % (p.window.length - 3)

/-- The sequences to delete: none where too few are tracked. -/
def Planting.sequences (p : Planting) : List ℤ :=
  if p.window.length < 6 then [] else gapSeqs p.draws p.window

/-- The row is one of those to delete. -/
def Planting.Deletes (p : Planting) (row : TickRow) : Prop :=
  row.symbol = p.tick.symbol ∧ row.sequence ∈ p.sequences

instance (p : Planting) (row : TickRow) : Decidable (p.Deletes row) :=
  inferInstanceAs (Decidable (_ ∧ _))

/-- The planting of a fill that is to carry a sequence gap. -/
def planting (recent : Str → List ℤ) (tick : Tick) (draws : Draws) : Planting where
  tick := tick
  window := Frame.sortBy id (recent tick.symbol)
  draws := draws

/-- The plantings of the events, from what is tracked before them. -/
def plantingsFrom (config : SimulatorConfig) : (Str → List ℤ) → List Event → List Planting
  | _, [] => []
  | recent, .seen tick :: rest => plantingsFrom config (track recent tick) rest
  | recent, .filled tick draws :: rest =>
    if draws.anomalyType config = some .sequenceGap then
      planting recent tick draws :: plantingsFrom config recent rest
    else plantingsFrom config recent rest

/-- The plantings of a new simulator. -/
def plantings (config : SimulatorConfig) (events : List Event) : List Planting :=
  plantingsFrom config (fun _ ↦ []) events

/-- A planting picks from what the run has tracked when it comes to it. -/
theorem mem_plantings {config : SimulatorConfig} {events : List Event} {p : Planting}
    (h : p ∈ plantings config events) :
    ∃ before tick draws after, events = before ++ .filled tick draws :: after ∧
      draws.anomalyType config = some .sequenceGap ∧
        p = planting (trackedAfter before) tick draws := by
  have key : ∀ {recent : Str → List ℤ} {events : List Event},
      p ∈ plantingsFrom config recent events →
        ∃ before tick draws after, events = before ++ .filled tick draws :: after ∧
          draws.anomalyType config = some .sequenceGap ∧
            p = planting ((seenTicks before).foldl track recent) tick draws := by
    intro recent events h
    induction events generalizing recent with
    | nil => cases h
    | cons event rest ih =>
      cases event with
      | seen tick =>
        obtain ⟨before, tick', draws, after, rfl, hgap, hp⟩ := ih h
        exact ⟨.seen tick :: before, tick', draws, after, rfl, hgap, hp⟩
      | filled tick draws =>
        rw [plantingsFrom] at h
        have hrest : p ∈ plantingsFrom config recent rest →
            ∃ before tick' draws' after,
              .filled tick draws :: rest = before ++ .filled tick' draws' :: after ∧
                draws'.anomalyType config = some .sequenceGap ∧
                  p = planting ((seenTicks before).foldl track recent) tick' draws' := by
          intro h
          obtain ⟨before, tick', draws', after, rfl, hgap, hp⟩ := ih h
          exact ⟨.filled tick draws :: before, tick', draws', after, rfl, hgap, hp⟩
        split at h
        · rename_i hgap
          rcases List.mem_cons.mp h with rfl | h
          · exact ⟨[], tick, draws, rest, rfl, hgap, rfl⟩
          · exact hrest h
        · exact hrest h
  exact key h

/-! ## What they do to a store -/

/-- What is left of a store after the plantings. -/
def survivors (ps : List Planting) (store : TickStore) : TickStore :=
  store.filter fun row ↦ ∀ p ∈ ps, ¬ p.Deletes row

/-- The sequences a planting removes from a store, one for every row. -/
def Planting.deleted (p : Planting) (store : TickStore) : List ℤ :=
  (store.filter fun row ↦ p.Deletes row).map TickRow.sequence

/-- The plantings that find something to delete, with what they delete. -/
def removals : List Planting → TickStore → List (Planting × List ℤ)
  | [], _ => []
  | p :: ps, store =>
    if p.deleted store = [] then removals ps store
    else (p, p.deleted store) :: removals ps (survivors [p] store)

/-- The row logged for a planting that deleted something. -/
def gapAnomaly (r : Planting × List ℤ) : PlantedAnomaly where
  anomalyType := .sequenceGap
  symbol := r.1.tick.symbol
  plantedAt := r.1.tick.exchangeTimestamp
  detail := [.text "deleted stored ticks with sequences ", .ints r.2, .text " for ",
    .str r.1.tick.symbol]
  relatedSequenceStart := r.2.min?
  relatedSequenceEnd := r.2.max?

theorem mem_survivors {ps : List Planting} {store : TickStore} {row : TickRow} :
    row ∈ survivors ps store ↔ row ∈ store ∧ ∀ p ∈ ps, ¬ p.Deletes row := by
  rw [survivors, List.mem_filter, decide_eq_true_eq]

theorem survivors_nil (store : TickStore) : survivors [] store = store := by
  rw [survivors, List.filter_eq_self]
  simp

theorem survivors_cons (p : Planting) (ps : List Planting) (store : TickStore) :
    survivors (p :: ps) store = survivors ps (survivors [p] store) := by
  rw [survivors, survivors, survivors, List.filter_filter]
  refine List.filter_congr fun row _ ↦ ?_
  simp [Bool.and_comm]

/-- A planting that finds nothing to delete leaves the store alone. -/
theorem survivors_of_deleted_eq_nil {p : Planting} {store : TickStore}
    (h : p.deleted store = []) : survivors [p] store = store := by
  rw [Planting.deleted, List.map_eq_nil_iff, List.filter_eq_nil_iff] at h
  rw [survivors, List.filter_eq_self]
  intro row hrow
  simpa using h row hrow

theorem mem_of_mem_removals {ps : List Planting} {store : TickStore} {r : Planting × List ℤ}
    (h : r ∈ removals ps store) : r.1 ∈ ps := by
  induction ps generalizing store with
  | nil => cases h
  | cons p ps ih =>
    rw [removals] at h
    split at h
    · exact List.mem_cons_of_mem _ (ih h)
    · rcases List.mem_cons.mp h with rfl | h
      · exact List.mem_cons_self
      · exact List.mem_cons_of_mem _ (ih h)

/-- A row that goes is removed by one of the plantings that find something to delete. -/
theorem exists_mem_removals {ps : List Planting} {store : TickStore} {row : TickRow}
    (hrow : row ∈ store) {p : Planting} (hp : p ∈ ps) (hdel : p.Deletes row) :
    ∃ r ∈ removals ps store, r.1.Deletes row ∧ row.sequence ∈ r.2 := by
  induction ps generalizing store with
  | nil => cases hp
  | cons q ps ih =>
    rw [removals]
    by_cases hq : q.Deletes row
    · have hmem : row.sequence ∈ q.deleted store :=
        List.mem_map.mpr ⟨row, List.mem_filter.mpr ⟨hrow, decide_eq_true hq⟩, rfl⟩
      rw [if_neg (List.ne_nil_of_mem hmem)]
      exact ⟨_, List.mem_cons_self, hq, hmem⟩
    · have hps : p ∈ ps := (List.mem_cons.mp hp).resolve_left (by rintro rfl; exact hq hdel)
      split
      · exact ih hrow hps
      · have hleft : row ∈ survivors [q] store := mem_survivors.mpr ⟨hrow, by simpa using hq⟩
        obtain ⟨r, hr, h⟩ := ih hleft hps
        exact ⟨r, List.mem_cons_of_mem _ hr, h⟩

/-! ## What a run does to the stores -/

section Step

variable (config : SimulatorConfig) (draws : Draws) (tick : Tick) (s : Simulator)

/-- Planting a gap, seen from the stores. -/
theorem plantSequenceGap_stores :
    let p := planting s.recentSequences tick draws
    let s' := s.plantSequenceGap draws tick.symbol tick.exchangeTimestamp
    s'.recentSequences = s.recentSequences ∧ s'.tickStore = survivors [p] s.tickStore ∧
      s'.bookStore.plantedAnomalies =
        s.bookStore.plantedAnomalies ++ (removals [p] s.tickStore).map gapAnomaly := by
  intro p s'
  have hdel : p.deleted s.tickStore =
      (s.tickStore.deleteSequences tick.symbol p.sequences).2 := by
    rw [TickStore.deleteSequences_eq]
    rfl
  have hleft : survivors [p] s.tickStore
      = (s.tickStore.deleteSequences tick.symbol p.sequences).1 := by
    rw [TickStore.deleteSequences_eq, survivors]
    refine List.filter_congr fun row _ ↦ ?_
    simp [Planting.Deletes, p, planting]
  by_cases hfew : p.window.length < 6
  · have hs' : s' = s := if_pos hfew
    have hnone : p.deleted s.tickStore = [] := by
      rw [hdel, Planting.sequences, if_pos hfew]
      rfl
    rw [hs', survivors_of_deleted_eq_nil hnone, removals, if_pos hnone]
    exact ⟨rfl, rfl, (List.append_nil _).symm⟩
  · have hseqs : p.sequences = gapSeqs draws p.window := if_neg hfew
    have hs' : s' = if p.deleted s.tickStore = [] then
          { s with tickStore := survivors [p] s.tickStore }
        else ({ s with tickStore := survivors [p] s.tickStore } : Simulator).logPlanted
          (gapAnomaly (p, p.deleted s.tickStore)) := by
      rw [hdel, hleft, hseqs]
      exact if_neg hfew
    rw [hs']
    split
    · rename_i hnone
      rw [removals, if_pos hnone]
      exact ⟨rfl, rfl, (List.append_nil _).symm⟩
    · rename_i hsome
      rw [removals, if_neg hsome]
      exact ⟨rfl, rfl, rfl⟩

/-- The anomalies one fill logs. -/
def logged : List PlantedAnomaly :=
  match draws.anomalyType config with
  | some .unmatchedFill => [unmatchedAnomaly draws tick]
  | some .positionDrift => [driftAnomaly draws tick (s.nextTrue config draws tick)]
  | some .sequenceGap =>
    (removals [planting s.recentSequences tick draws] s.tickStore).map gapAnomaly
  | none => []

/-- The plantings of one fill. -/
def plantingOf : List Planting :=
  if draws.anomalyType config = some .sequenceGap then [planting s.recentSequences tick draws]
  else []

/-- What one fill does to the tick store and to the log. -/
theorem generateFill_stores :
    let s' := s.generateFill config draws tick
    s'.recentSequences = s.recentSequences ∧
      s'.tickStore = survivors (s.plantingOf config draws tick) s.tickStore ∧
        s'.bookStore.plantedAnomalies
          = s.bookStore.plantedAnomalies ++ s.logged config draws tick := by
  intro s'
  have hbooked := bookFill_plantedAnomalies config draws tick s
  simp only [s', generateFill, settleFill, plantingOf, logged]
  split
  · rename_i htype
    rw [htype, if_neg (by decide), survivors_nil]
    exact ⟨rfl, rfl, by simp [logPlanted, BookStore.logPlantedAnomaly, hbooked]⟩
  · rename_i htype
    rw [htype, if_neg (by decide), survivors_nil]
    refine ⟨rfl, rfl, ?_⟩
    have hqty : ((s.bookFill config draws tick).truePosition tick.symbol).getD 0
        = s.nextTrue config draws tick := by
      rw [bookFill, applyFill, nextTrue]
      simp only [newFill_symbol, Function.update_self, Option.getD_some]
    simp [logPlanted, BookStore.logPlantedAnomaly, writePosition, BookStore.writePosition, hbooked,
      hqty]
  · rename_i htype
    rw [htype, if_pos rfl]
    obtain ⟨hrecent, hticks, hlog⟩ := plantSequenceGap_stores draws tick
      ((s.bookFill config draws tick).writePosition tick.symbol tick.exchangeTimestamp
        draws.fillId none)
    refine ⟨hrecent, hticks, hlog.trans ?_⟩
    exact congrArg (· ++ _) hbooked
  · rename_i htype
    rw [htype, if_neg (by decide), survivors_nil]
    exact ⟨rfl, rfl, by simp [writePosition, BookStore.writePosition, hbooked]⟩

/-- The sequence gaps one fill logs. -/
theorem filter_sequenceGap_logged :
    ((s.logged config draws tick).filter fun a ↦ a.anomalyType = .sequenceGap) =
      (removals (s.plantingOf config draws tick) s.tickStore).map gapAnomaly := by
  rw [logged, plantingOf]
  split
  · rename_i htype
    rw [htype, if_neg (by decide)]
    rfl
  · rename_i htype
    rw [htype, if_neg (by decide)]
    rfl
  · rename_i htype
    rw [htype, if_pos rfl, List.filter_eq_self]
    intro a ha
    obtain ⟨d, -, rfl⟩ := List.mem_map.mp ha
    rfl
  · rename_i htype
    rw [htype, if_neg (by decide)]
    rfl

/-- The unmatched fills one fill logs. -/
theorem filter_unmatchedFill_logged :
    ((s.logged config draws tick).filter fun a ↦ a.anomalyType = .unmatchedFill) =
      if draws.anomalyType config = some .unmatchedFill then [unmatchedAnomaly draws tick]
      else [] := by
  rw [logged]
  split
  · rename_i htype
    rw [htype, if_pos rfl]
    rfl
  · rename_i htype
    rw [htype, if_neg (by decide)]
    rfl
  · rename_i htype
    rw [htype, if_neg (by decide), List.filter_eq_nil_iff]
    intro a ha
    obtain ⟨d, -, rfl⟩ := List.mem_map.mp ha
    exact of_decide_eq_false rfl
  · rename_i htype
    rw [htype, if_neg (by decide)]
    rfl

end Step

theorem removals_append (ps qs : List Planting) (store : TickStore) :
    removals (ps ++ qs) store = removals ps store ++ removals qs (survivors ps store) := by
  induction ps generalizing store with
  | nil => rw [survivors_nil, removals, List.nil_append, List.nil_append]
  | cons p ps ih =>
    rw [List.cons_append, removals, removals, survivors_cons p ps]
    split
    · rename_i hnone
      rw [ih, survivors_of_deleted_eq_nil hnone]
    · rw [ih, List.cons_append]

theorem survivors_append (ps qs : List Planting) (store : TickStore) :
    survivors (ps ++ qs) store = survivors qs (survivors ps store) := by
  induction ps generalizing store with
  | nil => rw [survivors_nil, List.nil_append]
  | cons p ps ih => rw [List.cons_append, survivors_cons, ih, ← survivors_cons]

/-- **What a run does to the stores.**  The tick store loses what the plantings delete, and the
sequence gaps logged are those of the plantings that found something to delete. -/
theorem foldl_stores (config : SimulatorConfig) (events : List Event) (s : Simulator) :
    let ps := plantingsFrom config s.recentSequences events
    let s' := events.foldl (Event.apply config) s
    s'.tickStore = survivors ps s.tickStore ∧
      (s'.bookStore.plantedAnomalies.filter fun a ↦ a.anomalyType = .sequenceGap) =
        (s.bookStore.plantedAnomalies.filter fun a ↦ a.anomalyType = .sequenceGap) ++
          (removals ps s.tickStore).map gapAnomaly := by
  induction events generalizing s with
  | nil => exact ⟨(survivors_nil _).symm, (List.append_nil _).symm⟩
  | cons event rest ih =>
    cases event with
    | seen tick => exact ih (s.trackSequence tick)
    | filled tick draws =>
      obtain ⟨hrecent, hticks, hlog⟩ := generateFill_stores config draws tick s
      obtain ⟨ihticks, ihlog⟩ := ih (s.generateFill config draws tick)
      have hps : plantingsFrom config s.recentSequences (.filled tick draws :: rest) =
          s.plantingOf config draws tick ++ plantingsFrom config s.recentSequences rest := by
        rw [plantingsFrom, plantingOf]
        split
        · rfl
        · rfl
      rw [hrecent, hticks] at ihticks ihlog
      rw [hlog, List.filter_append, filter_sequenceGap_logged] at ihlog
      dsimp only
      rw [hps, List.foldl_cons, survivors_append, removals_append, List.map_append,
        ← List.append_assoc]
      exact ⟨ihticks, ihlog⟩

end Simulator

end PostTrade
