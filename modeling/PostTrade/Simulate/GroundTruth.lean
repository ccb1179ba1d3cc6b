import PostTrade.Simulate.PlantedGaps

/-!
# The two records of ground truth

A simulated fill says of itself which anomaly it carries, and `planted_anomalies` has a row for
each anomaly planted, with a counter beside it.  The counter is moved with the rows, so these two
agree in every run (`Tallied`).  The fill is marked before the anomaly is attempted, and the attempt
at a sequence gap may come to nothing: too few sequences are tracked, or none of those picked is
stored any more.  Then the fill is marked and nothing is logged.

`records_agree_iff` says that this is the only way the records part.
-/

set_option autoImplicit false

namespace PostTrade

namespace BookStore

/-- The stored fills marked with an anomaly of the type. -/
def fillsMarked (t : AnomalyType) (book : BookStore) : ℕ :=
  book.fills.countP fun f ↦ f.isPlantedAnomaly = true ∧ f.anomalyType = some t

/-- The rows of the type in `planted_anomalies`. -/
def rowsLogged (t : AnomalyType) (book : BookStore) : ℕ :=
  book.plantedAnomalies.countP fun a ↦ a.anomalyType = t

end BookStore

namespace Simulator

open Numbering

/-! ## Rows and counters -/

section Tallied

variable {config : SimulatorConfig} {t : AnomalyType} {n : ℕ} {s : Simulator}

/-- The counter of the type is the number of its rows beyond the first `n`. -/
def Tallied (t : AnomalyType) (n : ℕ) (s : Simulator) : Prop :=
  s.bookStore.rowsLogged t = n + s.anomaliesPlanted t

theorem Tallied.logPlanted (h : Tallied t n s) (a : PlantedAnomaly) :
    Tallied t n (s.logPlanted a) := by
  rw [Tallied, BookStore.rowsLogged] at h ⊢
  by_cases ha : a.anomalyType = t
  · subst ha
    simp [Simulator.logPlanted, BookStore.logPlantedAnomaly, List.countP_append, h, Nat.add_assoc]
  · simp [Simulator.logPlanted, BookStore.logPlantedAnomaly, List.countP_append, h, ha,
      Function.update_of_ne (Ne.symm ha)]

theorem Tallied.plantSequenceGap (h : Tallied t n s) (draws : Draws) (symbol : Str)
    (plantedAt : Time) : Tallied t n (s.plantSequenceGap draws symbol plantedAt) := by
  rw [Simulator.plantSequenceGap]
  split
  · exact h
  · dsimp only
    split
    · exact h
    · exact Tallied.logPlanted h _

theorem Tallied.generateFill (h : Tallied t n s) (draws : Draws) (tick : Tick) :
    Tallied t n (s.generateFill config draws tick) := by
  have hbooked : Tallied t n (s.bookFill config draws tick) := by
    rw [Tallied, BookStore.rowsLogged, bookFill_plantedAnomalies]
    exact h
  rw [Simulator.generateFill, settleFill]
  split
  · exact hbooked.logPlanted _
  · exact hbooked.logPlanted _
  · apply Tallied.plantSequenceGap
    exact hbooked
  · exact hbooked

/-- **Every row logged is counted.** -/
theorem Tallied.foldl (events : List Event) (h : Tallied t n s) :
    Tallied t n (events.foldl (Event.apply config) s) := by
  induction events generalizing s with
  | nil => exact h
  | cons event rest ih =>
    cases event with
    | seen tick => exact ih h
    | filled tick draws => exact ih (h.generateFill draws tick)

end Tallied

/-! ## Attempts -/

/-- The fills of the events that are to carry an anomaly of the type. -/
def attempts (config : SimulatorConfig) (t : AnomalyType) (events : List Event) : ℕ :=
  (trades events).countP fun trade ↦ trade.2.anomalyType config = some t

section Attempts

variable {config : SimulatorConfig} {t : AnomalyType}

theorem attempts_filled (tick : Tick) (draws : Draws) (events : List Event) :
    attempts config t (.filled tick draws :: events) =
      (if draws.anomalyType config = some t then 1 else 0) + attempts config t events := by
  rw [attempts, trades_filled, List.countP_cons, Nat.add_comm]
  simp only [decide_eq_true_eq, attempts]

/-- A fill is marked with what it is to carry. -/
theorem fillsMarked_foldl (events : List Event) (s : Simulator) (hnd : (filledIds events).Nodup)
    (hfresh : ∀ id ∈ filledIds events, id ∉ s.bookStore.fills.map Fill.fillId) :
    (events.foldl (Event.apply config) s).bookStore.fillsMarked t =
      s.bookStore.fillsMarked t + attempts config t events := by
  induction events generalizing s with
  | nil => rfl
  | cons event rest ih =>
    cases event with
    | seen tick => exact ih (s.trackSequence tick) hnd hfresh
    | filled tick draws =>
      rw [filledIds_filled] at hnd hfresh
      have hfills := (generateFill_cases config draws tick (hfresh _ List.mem_cons_self)).1
      have hmarked : (s.generateFill config draws tick).bookStore.fillsMarked t =
          s.bookStore.fillsMarked t + if draws.anomalyType config = some t then 1 else 0 := by
        rw [BookStore.fillsMarked, hfills, List.countP_append, List.countP_singleton]
        refine congrArg _ (if_congr ?_ rfl rfl)
        rw [decide_eq_true_eq]
        refine and_iff_right_of_imp fun htype ↦ ?_
        exact Option.isSome_iff_exists.mpr ⟨t, htype⟩
      rw [List.foldl_cons, Event.apply, ih (s.generateFill config draws tick)
        (List.nodup_cons.mp hnd).2 (fresh_generateFill hnd hfresh), hmarked, attempts_filled,
        Nat.add_assoc]

/-- An unmatched fill or a drift is logged with its fill. -/
theorem rowsLogged_foldl_of_ne (ht : t ≠ .sequenceGap) (events : List Event) (s : Simulator) :
    (events.foldl (Event.apply config) s).bookStore.rowsLogged t =
      s.bookStore.rowsLogged t + attempts config t events := by
  induction events generalizing s with
  | nil => rfl
  | cons event rest ih =>
    cases event with
    | seen tick => exact ih (s.trackSequence tick)
    | filled tick draws =>
      obtain ⟨-, -, hlog⟩ := generateFill_stores config draws tick s
      have hrows : (s.logged config draws tick).countP (fun a ↦ a.anomalyType = t) =
          if draws.anomalyType config = some t then 1 else 0 := by
        rw [logged]
        split
        · rename_i htype
          rw [htype, List.countP_singleton]
          exact if_congr (decide_eq_true_iff.trans Option.some_inj.symm) rfl rfl
        · rename_i htype
          rw [htype, List.countP_singleton]
          exact if_congr (decide_eq_true_iff.trans Option.some_inj.symm) rfl rfl
        · rename_i htype
          rw [htype, if_neg (by simpa using Ne.symm ht), List.countP_eq_zero]
          intro a ha
          obtain ⟨r, -, rfl⟩ := List.mem_map.mp ha
          exact fun h ↦ ht (of_decide_eq_true h).symm
        · rename_i htype
          rw [htype]
          rfl
      rw [List.foldl_cons, Event.apply, ih (s.generateFill config draws tick), attempts_filled,
        BookStore.rowsLogged, hlog, List.countP_append, hrows, Nat.add_assoc]
      rfl

/-- A sequence gap is logged where its planting found something to delete. -/
theorem rowsLogged_sequenceGap_foldl (events : List Event) (s : Simulator) :
    (events.foldl (Event.apply config) s).bookStore.rowsLogged .sequenceGap =
      s.bookStore.rowsLogged .sequenceGap +
        (removals (plantingsFrom config s.recentSequences events) s.tickStore).length := by
  have hlog := (foldl_stores config events s).2
  rw [BookStore.rowsLogged, List.countP_eq_length_filter, hlog, List.length_append,
    List.length_map, ← List.countP_eq_length_filter]
  rfl

theorem length_plantingsFrom (recent : Str → List ℤ) (events : List Event) :
    (plantingsFrom config recent events).length = attempts config .sequenceGap events := by
  induction events generalizing recent with
  | nil => rfl
  | cons event rest ih =>
    cases event with
    | seen tick => exact ih (track recent tick)
    | filled tick draws =>
      rw [plantingsFrom, attempts_filled]
      split
      · rw [List.length_cons, ih, Nat.add_comm]
      · rw [ih, Nat.zero_add]

end Attempts

/-! ## Plantings that come to nothing -/

/-- The planting picks a sequence of its symbol that is stored.  Where fewer than six sequences are
tracked it picks none. -/
def Planting.FindsTick (p : Planting) (store : TickStore) : Prop :=
  ∃ row ∈ store, p.Deletes row

instance (p : Planting) (store : TickStore) : Decidable (p.FindsTick store) :=
  inferInstanceAs (Decidable (∃ _ ∈ store, _))

/-- Each of the plantings finds a tick among those the ones before it have left. -/
def AllFind (ps : List Planting) (store : TickStore) : Prop :=
  ∀ before p after, ps = before ++ p :: after → p.FindsTick (survivors before store)

theorem Planting.deleted_eq_nil_iff {p : Planting} {store : TickStore} :
    p.deleted store = [] ↔ ¬ p.FindsTick store := by
  rw [Planting.deleted, List.map_eq_nil_iff, List.filter_eq_nil_iff, Planting.FindsTick]
  simp only [decide_eq_true_eq, not_exists, not_and]

theorem allFind_cons_iff {p : Planting} {ps : List Planting} {store : TickStore} :
    AllFind (p :: ps) store ↔ p.FindsTick store ∧ AllFind ps (survivors [p] store) := by
  constructor
  · intro h
    refine ⟨?_, fun before q after hps ↦ ?_⟩
    · simpa only [survivors_nil] using h [] p ps rfl
    · rw [← survivors_cons]
      exact h (p :: before) q after (by rw [hps, List.cons_append])
  · rintro ⟨hp, hps⟩ before q after heq
    cases before with
    | nil =>
      cases heq
      rwa [survivors_nil]
    | cons first before =>
      rw [List.cons_append, List.cons.injEq] at heq
      obtain ⟨rfl, heq⟩ := heq
      rw [survivors_cons]
      exact hps before q after heq

theorem length_removals_le (ps : List Planting) (store : TickStore) :
    (removals ps store).length ≤ ps.length := by
  induction ps generalizing store with
  | nil => exact le_rfl
  | cons p ps ih =>
    rw [removals, List.length_cons]
    split
    · exact (ih store).trans (Nat.le_succ _)
    · exact Nat.succ_le_succ (ih _)

/-- As many removals as plantings: each planting found a tick. -/
theorem length_removals_eq_iff (ps : List Planting) (store : TickStore) :
    (removals ps store).length = ps.length ↔ AllFind ps store := by
  induction ps generalizing store with
  | nil => simp [removals, AllFind]
  | cons p ps ih =>
    rw [removals, allFind_cons_iff]
    split
    · rename_i hnone
      have hle := length_removals_le ps store
      rw [List.length_cons]
      exact ⟨fun h ↦ by omega, fun h ↦ absurd h.1 (Planting.deleted_eq_nil_iff.mp hnone)⟩
    · rename_i hsome
      have hfinds : p.FindsTick store :=
        not_not.mp fun h ↦ hsome (Planting.deleted_eq_nil_iff.mpr h)
      rw [List.length_cons, List.length_cons, Nat.succ_inj, ih]
      exact (and_iff_right hfinds).symm

/-! ## The records of a run -/

/-- Of the anomalies of the type, a run that started from the book marked as many fills and logged
as many rows as it counted. -/
def RecordsAgree (t : AnomalyType) (before : BookStore) (final : Simulator) : Prop :=
  final.bookStore.fillsMarked t = before.fillsMarked t + final.anomaliesPlanted t ∧
    final.bookStore.rowsLogged t = before.rowsLogged t + final.anomaliesPlanted t

instance (t : AnomalyType) (before : BookStore) (final : Simulator) :
    Decidable (RecordsAgree t before final) :=
  inferInstanceAs (Decidable (_ ∧ _))

/-- **When the ground truth agrees with itself.**  The fills a run marks, the rows it logs and the
count it keeps of unmatched fills and of position drifts agree always; those of sequence gaps agree
exactly when every planting of the run picks a tick that is still stored. -/
theorem records_agree_iff (config : SimulatorConfig) (maxFills maxIdleReads : Option ℤ)
    (reads : List (List (Tick × Draws))) (tickStore : TickStore) (bookStore : BookStore)
    (hnd : (reads.flatten.map fun m ↦ m.2.fillId).Nodup)
    (hfresh : ∀ m ∈ reads.flatten, m.2.fillId ∉ bookStore.fills.map Fill.fillId)
    (t : AnomalyType) :
    RecordsAgree t bookStore
        (run config maxFills maxIdleReads reads { tickStore, bookStore }) ↔
      (t = .sequenceGap →
        AllFind (plantings config (eventsOf config maxFills maxIdleReads reads)) tickStore) := by
  rw [run_eq]
  set events := eventsOf config maxFills maxIdleReads reads with hevents
  set s : Simulator := { tickStore, bookStore } with hs
  have hids := (eventsOf_spec config maxFills maxIdleReads reads).filled
  have hmarked := @fillsMarked_foldl config t events s (hids.nodup hnd) (by
    intro id hid
    obtain ⟨m, hm, rfl⟩ := List.mem_map.mp (hids.subset hid)
    exact hfresh m hm)
  have hrows : Tallied t (bookStore.rowsLogged t) (events.foldl (Event.apply config) s) :=
    Tallied.foldl events (Nat.add_zero _).symm
  rw [Tallied] at hrows
  -- the rows are the count, so the fills marked are as many exactly when every attempt is logged
  have hiff : RecordsAgree t bookStore (events.foldl (Event.apply config) s) ↔
      (events.foldl (Event.apply config) s).bookStore.rowsLogged t =
        bookStore.rowsLogged t + attempts config t events := by
    rw [RecordsAgree, hmarked, and_iff_left hrows, hrows, Nat.add_right_inj, Nat.add_right_inj]
    exact eq_comm
  rw [hiff]
  by_cases ht : t = .sequenceGap
  · subst ht
    rw [rowsLogged_sequenceGap_foldl, Nat.add_right_inj, ← length_plantingsFrom,
      length_removals_eq_iff]
    exact ⟨fun h _ ↦ h, fun h ↦ h rfl⟩
  · exact iff_of_true (rowsLogged_foldl_of_ne ht events s) fun h ↦ absurd h ht

/-! ### A gap drawn too early -/

/-- One read that passes over so many ticks and draws a sequence gap at the next. -/
def gapAfter (quiet : ℕ) : List (List (Tick × Draws)) :=
  [(oneTo quiet).map (fun n ↦ (tickNo n, { quietDraws with fillId := (Nat.repr n.toNat).toList }))
    ++ [(tickNo (quiet + 1), { gapDraws 1 with fillId := "gap".toList })]]

/-- After six ticks a gap is planted, and the records agree. -/
theorem records_agree_after_six :
    RecordsAgree .sequenceGap {}
      (run {} none none (gapAfter 6) { tickStore := sevenTicks, bookStore := {} }) := by
  have hall : AllFind (plantings {} (eventsOf {} none none (gapAfter 6))) sevenTicks :=
    (length_removals_eq_iff _ _).mp (by decide +kernel)
  exact (records_agree_iff {} none none (gapAfter 6) sevenTicks {} (by decide +kernel)
    (by decide +kernel) .sequenceGap).mpr fun _ ↦ hall

/-- Drawn at the first tick the gap comes to nothing: a fill is marked, and nothing is logged or
counted. -/
theorem marked_not_logged :
    let final := run {} none none (gapAfter 0) { tickStore := sevenTicks, bookStore := {} }
    ((gapAfter 0).flatten.map fun m ↦ m.2.fillId).Nodup ∧
      final.bookStore.fillsMarked .sequenceGap = 1 ∧
        final.bookStore.rowsLogged .sequenceGap = 0 ∧ final.anomaliesPlanted .sequenceGap = 0 := by
  decide +kernel

end Simulator

end PostTrade
