import PostTrade.Silver.Rebuild
import PostTrade.Lib.Frame
import PostTrade.Lib.Machine

/-!
# The sensor

`orchestration/sensors.py`: `new_bronze_partition_sensor` compares the partitions of the bronze
bucket with those in its cursor and requests a run of the transform for every new one.  The cursor
is a string, the pairs joined by commas, in whatever order Python iterates over a set of them.

Objects land in the bucket at any time.  An evaluation of the sensor is one step together with the
runs it requests, which complete before anything else happens.

The cursor remembers partitions, so an object that lands in a partition already seen requests
nothing: `silver_holds_first_discovery` says that silver holds what was there when the partition was
first discovered, as long as names are free of the separators of the cursor and of the characters
that mean something to a glob.
-/

set_option autoImplicit false

namespace PostTrade

open Python

/-! ## The cursor -/

/-- `f"{s}|{d}"`. -/
def pairText (p : Partition) : Str := p.1 ++ '|' :: p.2

/-- The cursor with the given pairs. -/
def encodeCursor (pairs : List Partition) : Str := [','].intercalate (pairs.map pairText)

/-- `tuple(pair.split("|", 1))`, which is a pair where the text has a bar. -/
def readPair (pair : Str) : Option Partition :=
  match splitOnce '|' pair with
  | [symbol, date] => some (symbol, date)
  | _ => none

/-- `seen`: the pairs in the cursor. -/
def decodeCursor : Option Str → List Partition
  | none => []
  | some cursor => ((cursor.splitOn ',').filter fun pair ↦ pair ≠ []).filterMap readPair

/-! ## The sensor -/

/-- `new_bronze_partition_sensor` on what `discover_bronze_partitions` returns: the partitions
requested, in order, and the new cursor. -/
def newBronzePartitionSensor (cursor : Option Str) (available : List Partition) :
    List Partition × Str :=
  let seen := decodeCursor cursor
  let newPartitions := available.filter fun p ↦ p ∉ seen
  (Frame.sortBy toLex newPartitions, encodeCursor available)

/-- What a run of the transform draws: the clock for its lines and the name of its file. -/
structure RunDraws where
  clock : Str → Time × Time
  uuid : Str

/-- The run for a requested partition: `silver_ticks`. -/
def RunDraws.materialization (draws : RunDraws) (p : Partition) : Materialization where
  symbol := p.1
  date := p.2
  clock := draws.clock
  uuid := draws.uuid

/-! ## Bronze, cursor and silver together -/

structure Platform where
  bucket : Bucket
  cursor : Option Str
  lake : SilverLake

namespace Platform

/-- What happens: an object lands, or the sensor is evaluated.  An evaluation comes with the order
in which the set of partitions is iterated, and with what every requested run draws. -/
inductive Action
  | land (o : BronzeObject)
  | evaluate (available : List Partition) (draws : Partition → RunDraws)

/-- Nothing has landed yet. -/
def init : Platform where
  bucket := .empty
  cursor := none
  lake := []

/-- One step; an evaluation is no step where one of the runs it requests does not complete. -/
def step (outputDir : List Str) (s : Platform) : Action → Option Platform
  | .land o => some { s with bucket := s.bucket.put o }
  | .evaluate available draws =>
    if available.Perm (discoverBronzePartitions s.bucket) then
      let (requests, cursor) := newBronzePartitionSensor s.cursor available
      match runTransforms s.bucket outputDir s.lake
        (requests.map fun p ↦ (draws p).materialization p) with
      | .error _ => none
      | .ok lake => some { s with cursor := some cursor, lake }
    else none

end Platform

/-! ## What the cursor remembers -/

/-- A name without the delimiters of the cursor, but for a bar in the date. -/
structure Undelimited (p : Partition) : Prop where
  symbol_comma : ',' ∉ p.1
  symbol_bar : '|' ∉ p.1
  date_comma : ',' ∉ p.2

/-- A name without the delimiters of the cursor and without special characters of a glob. -/
structure WellNamed (p : Partition) : Prop where
  symbol_comma : ',' ∉ p.1
  symbol_bar : '|' ∉ p.1
  date_comma : ',' ∉ p.2
  plain : PlainPartition p

theorem WellNamed.undelimited {p : Partition} (h : WellNamed p) : Undelimited p :=
  ⟨h.symbol_comma, h.symbol_bar, h.date_comma⟩

theorem readPair_pairText {p : Partition} (h : '|' ∉ p.1) : readPair (pairText p) = some p := by
  rw [readPair, pairText, splitOnce_append h]

/-- **The cursor gives back what was put into it.** -/
theorem decodeCursor_encodeCursor {pairs : List Partition} (h : ∀ p ∈ pairs, Undelimited p) :
    decodeCursor (some (encodeCursor pairs)) = pairs := by
  rw [decodeCursor, encodeCursor]
  by_cases hnil : pairs = []
  · subst hnil
    rfl
  · have hcomma : ∀ text ∈ pairs.map pairText, ',' ∉ text := by
      intro text htext
      obtain ⟨p, hp, rfl⟩ := List.mem_map.mp htext
      simp [pairText, (h p hp).symbol_comma, (h p hp).date_comma]
    have hne : ∀ text ∈ pairs.map pairText, decide (text ≠ []) = true := by
      intro text htext
      obtain ⟨p, hp, rfl⟩ := List.mem_map.mp htext
      simp [pairText]
    rw [List.splitOn_intercalate _ hcomma (by simpa using hnil), List.filter_eq_self.mpr hne,
      List.filterMap_map]
    have hread : ∀ p ∈ pairs, (readPair ∘ pairText) p = some p :=
      fun p hp ↦ readPair_pairText (h p hp).symbol_bar
    rw [List.filterMap_congr hread, List.filterMap_some]

/-! ## What is requested -/

/-- A partition is requested when it is there and the cursor does not remember it. -/
theorem mem_newBronzePartitionSensor {cursor : Option Str} {available : List Partition}
    {p : Partition} : p ∈ (newBronzePartitionSensor cursor available).1 ↔
      p ∈ available ∧ p ∉ decodeCursor cursor := by
  rw [newBronzePartitionSensor, Frame.mem_sortBy, List.mem_filter, decide_eq_true_eq]

/-- No partition is requested twice. -/
theorem nodup_newBronzePartitionSensor {available : List Partition} (h : available.Nodup)
    (cursor : Option Str) : (newBronzePartitionSensor cursor available).1.Nodup := by
  rw [newBronzePartitionSensor, (Frame.sortBy_perm _ _).nodup_iff]
  exact h.filter _

namespace Platform

/-! ## One step -/

/-- An evaluation that is a step: its requests are run on the bucket, which stays as it is. -/
theorem step_evaluate_eq_some {outputDir : List Str} {s t : Platform} {available : List Partition}
    {draws : Partition → RunDraws} (h : step outputDir s (.evaluate available draws) = some t) :
    available.Perm (discoverBronzePartitions s.bucket) ∧ t.bucket = s.bucket ∧
      t.cursor = some (encodeCursor available) ∧
      runTransforms s.bucket outputDir s.lake
        ((newBronzePartitionSensor s.cursor available).1.map fun p ↦ (draws p).materialization p)
        = .ok t.lake := by
  rw [step] at h
  split at h
  · rename_i hperm
    dsimp only at h
    split at h
    · cases h
    · rename_i lake hruns
      cases h
      exact ⟨hperm, rfl, rfl, hruns⟩
  · cases h

/-- What holds in every state: names are harmless, the cursor remembers only partitions that are
there, every file of the lake is one of the transform, and a partition that the cursor does not
remember has none. -/
structure Sound (outputDir : List Str) (s : Platform) : Prop where
  named : ∀ p ∈ discoverBronzePartitions s.bucket, WellNamed p
  seen : ∀ p ∈ decodeCursor s.cursor, p ∈ discoverBronzePartitions s.bucket
  written : Written outputDir s.lake
  fresh : ∀ p ∉ decodeCursor s.cursor, partitionFiles outputDir p s.lake = []

theorem sound_init (outputDir : List Str) : init.Sound outputDir where
  named p hp := by
    obtain ⟨o, ho, -⟩ := mem_discoverBronzePartitions.mp hp
    cases ho
  seen p hp := nomatch hp
  written file hfile := nomatch hfile
  fresh p hp := rfl

theorem Sound.land {outputDir : List Str} {s : Platform} (h : s.Sound outputDir)
    {o : BronzeObject} (ho : ∀ p, partitionOfKey o.key = some p → WellNamed p) :
    Sound outputDir { s with bucket := s.bucket.put o } where
  named p hp := by
    obtain ⟨o', ho', hprefix, hkey⟩ := mem_discoverBronzePartitions.mp hp
    rcases Bucket.mem_put.mp ho' with rfl | ⟨ho', -⟩
    · exact ho p hkey
    · exact h.named p (mem_discoverBronzePartitions.mpr ⟨o', ho', hprefix, hkey⟩)
  seen p hp := (s.bucket.grows_put o).discovers (h.seen p hp)
  written := h.written
  fresh := h.fresh

/-- **What an evaluation does**: afterwards the cursor remembers the partitions there are, a
partition it did not remember holds what the transform makes of the bucket, and every other one is
left alone. -/
theorem Sound.evaluate {outputDir : List Str} {s t : Platform} (h : s.Sound outputDir)
    {available : List Partition} {draws : Partition → RunDraws}
    (hstep : step outputDir s (.evaluate available draws) = some t) :
    t.Sound outputDir ∧ t.bucket = s.bucket ∧
      (∀ p, p ∈ decodeCursor t.cursor ↔ p ∈ discoverBronzePartitions s.bucket) ∧
      ∀ p, partitionFiles outputDir p t.lake =
        if p ∈ discoverBronzePartitions s.bucket ∧ p ∉ decodeCursor s.cursor then
          (transformSymbolDate s.bucket outputDir [] ((draws p).materialization p)).2
        else partitionFiles outputDir p s.lake := by
  obtain ⟨hperm, hbucket, hencoded, hruns⟩ := step_evaluate_eq_some hstep
  set requests := (newBronzePartitionSensor s.cursor available).1 with hrequests
  have hcursor : ∀ p, p ∈ decodeCursor t.cursor ↔ p ∈ discoverBronzePartitions s.bucket := by
    intro p
    rw [hencoded, decodeCursor_encodeCursor fun p hp ↦
      (h.named p (hperm.mem_iff.mp hp)).undelimited]
    exact hperm.mem_iff
  have hrequested : ∀ p, p ∈ requests ↔
      p ∈ discoverBronzePartitions s.bucket ∧ p ∉ decodeCursor s.cursor := by
    intro p
    rw [hrequests, mem_newBronzePartitionSensor, hperm.mem_iff]
  have hpartitions : (requests.map fun p ↦ (draws p).materialization p).map
      Materialization.partition = requests := by
    rw [List.map_map]
    exact List.map_id _
  have hnodup : requests.Nodup := nodup_newBronzePartitionSensor
    (hperm.nodup_iff.mpr (nodup_discoverBronzePartitions _)) s.cursor
  obtain ⟨hwritten, hothers, hown⟩ := partitionFiles_runTransforms h.written
    (fun m hm ↦ by
      obtain ⟨p, hp, rfl⟩ := List.mem_map.mp hm
      exact (h.named p ((hrequested p).mp hp).1).plain)
    (fun m hm ↦ by
      obtain ⟨p, hp, rfl⟩ := List.mem_map.mp hm
      exact h.fresh p ((hrequested p).mp hp).2)
    (hpartitions.symm ▸ hnodup) hruns
  have hfiles : ∀ p, partitionFiles outputDir p t.lake =
      if p ∈ discoverBronzePartitions s.bucket ∧ p ∉ decodeCursor s.cursor then
        (transformSymbolDate s.bucket outputDir [] ((draws p).materialization p)).2
      else partitionFiles outputDir p s.lake := by
    intro p
    split
    · rename_i hp
      exact hown _ (List.mem_map.mpr ⟨p, (hrequested p).mpr hp, rfl⟩)
    · rename_i hp
      exact hothers p (by rwa [hpartitions, hrequested])
  have hfresh : ∀ p ∉ decodeCursor t.cursor, partitionFiles outputDir p t.lake = [] := by
    intro p hp
    rw [hcursor] at hp
    rw [hfiles, if_neg fun h ↦ hp h.1]
    exact h.fresh p fun hseen ↦ hp (h.seen p hseen)
  refine ⟨⟨?_, fun p hp ↦ ?_, hwritten, hfresh⟩, hbucket, hcursor, hfiles⟩
  · rw [hbucket]
    exact h.named
  · rw [hbucket]
    exact (hcursor p).mp hp

/-! ## A whole run -/

/-- The bucket at the first evaluation that discovers the partition, and what the run requested for
it draws. -/
def firstDiscovery (p : Partition) : Bucket → List Action → Option (Bucket × RunDraws)
  | _, [] => none
  | b, .land o :: as => firstDiscovery p (b.put o) as
  | b, .evaluate _ draws :: as =>
    if p ∈ discoverBronzePartitions b then some (b, draws p) else firstDiscovery p b as

/-- The objects that land keep to harmless names. -/
def LandsWellNamed (as : List Action) : Prop :=
  ∀ o, .land o ∈ as → ∀ p, partitionOfKey o.key = some p → WellNamed p

/-- What a run leaves in a partition: what was there, if the cursor remembers the partition from the
start, and else what the transform makes of the bucket at the first discovery. -/
theorem partitionFiles_run {outputDir : List Str} {s t : Platform} (h : s.Sound outputDir)
    {as : List Action} (hnames : LandsWellNamed as)
    (hrun : Machine.run (step outputDir) s as = some t) (p : Partition) :
    partitionFiles outputDir p t.lake =
      if p ∈ decodeCursor s.cursor then partitionFiles outputDir p s.lake
      else
        match firstDiscovery p s.bucket as with
        | none => partitionFiles outputDir p s.lake
        | some (b, draws) => (transformSymbolDate b outputDir [] (draws.materialization p)).2 := by
  induction as generalizing s with
  | nil =>
    cases hrun
    rw [firstDiscovery]
    exact (ite_self _).symm
  | cons a as ih =>
    obtain ⟨u, hstep, hrest⟩ := Machine.run_cons_eq_some.mp hrun
    have hnames' : LandsWellNamed as := fun o ho ↦ hnames o (List.mem_cons_of_mem _ ho)
    cases a with
    | land o =>
      cases hstep
      rw [ih (h.land (hnames o List.mem_cons_self)) hnames' hrest, firstDiscovery]
    | evaluate available draws =>
      obtain ⟨hsound, hbucket, hcursor, hfiles⟩ := h.evaluate hstep
      rw [ih hsound hnames' hrest, hfiles, hbucket, firstDiscovery]
      simp only [hcursor]
      by_cases hdiscovered : p ∈ discoverBronzePartitions s.bucket
      · by_cases hseen : p ∈ decodeCursor s.cursor
        · simp [hdiscovered, hseen]
        · simp [hdiscovered, hseen]
      · have hseen : p ∉ decodeCursor s.cursor := fun hp ↦ hdiscovered (h.seen p hp)
        simp [hdiscovered, hseen]

/-- What an evaluation at the end of a run discovers has a first discovery. -/
theorem exists_firstDiscovery {outputDir : List Str} {s t : Platform} {as : List Action}
    (hrun : Machine.run (step outputDir) s as = some t) {p : Partition}
    (hp : p ∈ discoverBronzePartitions t.bucket) (available : List Partition)
    (draws : Partition → RunDraws) :
    ∃ b first, firstDiscovery p s.bucket (as ++ [.evaluate available draws]) = some (b, first) := by
  induction as generalizing s with
  | nil =>
    cases hrun
    exact ⟨_, _, if_pos hp⟩
  | cons a as ih =>
    obtain ⟨u, hstep, hrest⟩ := Machine.run_cons_eq_some.mp hrun
    cases a with
    | land o =>
      cases hstep
      exact ih hrest
    | evaluate available' draws' =>
      rw [List.cons_append, firstDiscovery]
      split
      · exact ⟨_, _, rfl⟩
      · rw [← (step_evaluate_eq_some hstep).2.1]
        exact ih hrest

/-- **What the sensor keeps in silver.**  After every evaluation, the silver partition of each
discovered symbol and date holds exactly what the transform makes of the bucket as it was when an
evaluation first discovered the partition.  What has landed in the partition since is not there;
where its lines are still the same, silver is what the transform makes of the bucket now. -/
theorem silver_holds_first_discovery {outputDir : List Str} {as : List Action}
    (hnames : LandsWellNamed as) {available : List Partition} {draws : Partition → RunDraws}
    {s : Platform}
    (hrun : Machine.run (step outputDir) init (as ++ [.evaluate available draws]) = some s) :
    ∀ p ∈ discoverBronzePartitions s.bucket, ∃ b first,
      firstDiscovery p .empty (as ++ [.evaluate available draws]) = some (b, first) ∧
      partitionFiles outputDir p s.lake =
        (transformSymbolDate b outputDir [] (first.materialization p)).2 ∧
      (bronzeLines b p = bronzeLines s.bucket p → partitionFiles outputDir p s.lake =
        (transformSymbolDate s.bucket outputDir [] (first.materialization p)).2) := by
  intro p hp
  have hnames' : LandsWellNamed (as ++ [.evaluate available draws]) := by
    intro o ho
    rcases List.mem_append.mp ho with ho | ho
    · exact hnames o ho
    · cases List.mem_singleton.mp ho
  obtain ⟨u, hprefix, hlast⟩ := Machine.run_append_eq_some.mp hrun
  rw [Machine.run_singleton] at hlast
  obtain ⟨b, first, hfirst⟩ :=
    exists_firstDiscovery hprefix ((step_evaluate_eq_some hlast).2.1 ▸ hp) available draws
  have hseen : p ∉ decodeCursor init.cursor := List.not_mem_nil
  have hheld := partitionFiles_run (sound_init outputDir) hnames' hrun p
  rw [if_neg hseen, hfirst] at hheld
  dsimp only at hheld
  refine ⟨b, first, hfirst, hheld, fun hlines ↦ ?_⟩
  rw [hheld, transformSymbolDate_congr (m := first.materialization p) hlines]

/-! ### Falling behind -/

/-- What a row says, up to its number and its time of ingestion. -/
def content (row : SilverRow) : Str × ℚ × Option ℚ × Option Str × Str × Str × Time :=
  (row.symbol, row.price, row.size, row.side, row.exchange, row.channel, row.exchangeTimestamp)

/-- Every partition holds what a run of the transform now would get out of its lines. -/
def UpToDate (outputDir : List Str) (s : Platform) : Prop :=
  ∀ p ∈ discoverBronzePartitions s.bucket, ∃ (draws : RunDraws) (rows : List SilverRow),
    rebuild s.bucket (draws.materialization p) = .ok rows ∧
      ((partitionFiles outputDir p s.lake).rows.map content).Perm (rows.map content)

/-- The number of ticks that the lines of a partition are worth. -/
def acceptedLines (bucket : Bucket) (p : Partition) : ℕ :=
  match bronzeLines bucket p with
  | .ok lines => ((dedupLines [] lines).1.filterMap acceptedSymbol).length
  | .error _ => 0

theorem length_of_rebuild {bucket : Bucket} {m : Materialization} {rows : List SilverRow}
    (h : rebuild bucket m = .ok rows) : rows.length = acceptedLines bucket m.partition := by
  obtain ⟨-, lines, hlines, hsymbols⟩ := rebuild_ok h
  rw [acceptedLines, hlines, ← List.length_map (f := SilverRow.symbol), hsymbols]

/-- The partition is there, and it does not have as many rows as its lines are worth. -/
def behind (outputDir : List Str) (p : Partition) (s : Platform) : Bool :=
  p ∈ discoverBronzePartitions s.bucket &&
    (partitionFiles outputDir p s.lake).rows.length ≠ acceptedLines s.bucket p

theorem not_upToDate_of_behind {outputDir : List Str} {p : Partition} {s : Platform}
    (h : behind outputDir p s = true) : ¬ s.UpToDate outputDir := by
  rw [behind, Bool.and_eq_true, decide_eq_true_eq, decide_eq_true_eq] at h
  intro hupToDate
  obtain ⟨draws, rows, hrows, hperm⟩ := hupToDate p h.1
  have hlength := hperm.length_eq
  rw [List.length_map, List.length_map, length_of_rebuild hrows] at hlength
  exact h.2 hlength

/-- An evaluation all of whose runs draw the same. -/
def evaluation (available : List Partition) : Action :=
  .evaluate available fun _ ↦ { clock := fun _ ↦ (0, 0), uuid := "0".toList }

/-- A second object lands in a partition after an evaluation has seen the first one. -/
def lateObject : List Action :=
  [.land (tradeObject btcFirst "0" "100"), evaluation [btcFirst],
    .land (tradeObject btcFirst "1" "101"), evaluation [btcFirst]]

/-- Two partitions land one after the other, an evaluation after each of them. -/
def newPartition (p q : Partition) : List Action :=
  [.land (tradeObject p "0" "100"), evaluation [p], .land (tradeObject q "0" "100"),
    evaluation [p, q]]

def commaDay : Partition := ("X,BTC-USD".toList, "2026-01-01".toList)
def starDay : Partition := ("*".toList, "2026-01-01".toList)

theorem wellNamed_btcFirst : WellNamed btcFirst where
  symbol_comma := by decide
  symbol_bar := by decide
  date_comma := by decide
  plain := ⟨by decide, by decide⟩

/-- The late object is not in silver: what is there comes from the bucket without it. -/
theorem silver_holds_first_discovery_lateObject : ∃ s,
    Machine.run (step ["silver".toList]) init (lateObject ++ [evaluation [btcFirst]]) = some s ∧
    ∀ p ∈ discoverBronzePartitions s.bucket, ∃ b first,
      firstDiscovery p .empty (lateObject ++ [evaluation [btcFirst]]) = some (b, first) ∧
      partitionFiles ["silver".toList] p s.lake =
        (transformSymbolDate b ["silver".toList] [] (first.materialization p)).2 := by
  have hrun : (Machine.run (step ["silver".toList]) init
      (lateObject ++ [evaluation [btcFirst]])).isSome = true := by
    decide +kernel
  obtain ⟨s, hs⟩ := Option.isSome_iff_exists.mp hrun
  have hnames : LandsWellNamed lateObject := by
    intro o ho p hp
    have hbtc : partitionOfKey o.key = some btcFirst := by
      rcases ho with _ | ⟨_, _ | ⟨_, _ | ⟨_, _ | ⟨_, ho⟩⟩⟩⟩
      · decide +kernel
      · decide +kernel
      · cases ho
    rw [hbtc, Option.some.injEq] at hp
    exact hp ▸ wellNamed_btcFirst
  refine ⟨s, hs, fun p hp ↦ ?_⟩
  obtain ⟨b, first, hfirst, hheld, -⟩ := silver_holds_first_discovery hnames hs p hp
  exact ⟨b, first, hfirst, hheld⟩

/-- **Three ways to fall behind**, with nothing landing between the last two evaluations: an object
lands in a partition that has been seen; a symbol has a comma in it, and the cursor reads as if the
partition of another one had been seen; a symbol is a glob, and its run clears the files of another
one. -/
theorem silver_falls_behind :
    (∃ s, Machine.run (step ["silver".toList]) init
        (lateObject ++ [evaluation [btcFirst]]) = some s ∧ ¬ s.UpToDate ["silver".toList]) ∧
    (∃ s, Machine.run (step ["silver".toList]) init
        (newPartition commaDay btcFirst ++ [evaluation [commaDay, btcFirst]]) = some s ∧
      ¬ s.UpToDate ["silver".toList]) ∧
    ∃ s, Machine.run (step ["silver".toList]) init
        (newPartition btcFirst starDay ++ [evaluation [btcFirst, starDay]]) = some s ∧
      ¬ s.UpToDate ["silver".toList] := by
  have hbehind : ∀ {as : List Action}, (Machine.run (step ["silver".toList]) init as).any
      (behind ["silver".toList] btcFirst) = true →
      ∃ s, Machine.run (step ["silver".toList]) init as = some s ∧
        ¬ s.UpToDate ["silver".toList] := by
    intro as h
    obtain ⟨s, hrun, hs⟩ := (Option.any_eq_true _ _).mp h
    exact ⟨s, hrun, not_upToDate_of_behind hs⟩
  exact ⟨hbehind (by decide +kernel), hbehind (by decide +kernel), hbehind (by decide +kernel)⟩

end Platform

end PostTrade
