import PostTrade.Silver.Overlap

/-!
# Runs that fail

`transform_symbol_date` clears the files of its partition before it has built the table that takes
their place.  What raises before that leaves the partition as it was: reading, normalizing and
making the directory.  What raises after it does not: building the table, for a number that has no
place in the columns, and writing the file, for any reason there is.

`transformFaulty` is the function with the exceptions of the file system; without them it is
`transformSymbolDate`.  `write_table` removes a file that it does not finish.
-/

set_option autoImplicit false

namespace PostTrade

open Python Overlap

/-! ## The function and its file system -/

/-- The exception of the file system that strikes a run, if one does. -/
inductive Fault
  | none
  | makedirs
  /-- Removing a stale file raises, so many having been removed. -/
  | remove (n : ℕ)
  | write
  deriving DecidableEq, Repr

/-- What a run raises. -/
inductive RunError
  | transform (e : TransformError)
  | osError
  deriving DecidableEq, Repr

/-- The loop over the stale files. -/
def removeStale : Fault → List (List Str) → SilverLake → Except RunError Unit × SilverLake
  | _, [], lake => (.ok (), lake)
  | .remove 0, _ :: _, lake => (.error .osError, lake)
  | .remove (n + 1), path :: rest, lake =>
    removeStale (.remove n) rest (lake.filter fun file ↦ file.path ≠ path)
  | fault, path :: rest, lake =>
    removeStale fault rest (lake.filter fun file ↦ file.path ≠ path)

/-- `transform_symbol_date` where a fault strikes; `stale` is what `glob.glob` lists. -/
def transformFaulty (fault : Fault) (stale : List (List Str)) (bucket : Bucket)
    (outputDir : List Str) (lake : SilverLake) (m : Materialization) :
    Except RunError SilverTransformResult × SilverLake :=
  match bronzeLines bucket m.partition with
  | .error e => (.error (.transform e), lake)
  | .ok rawLines =>
    let (deduped, dropped) := dedupLines [] rawLines
    match normalizeLines m.clock (fun _ ↦ 0) deduped with
    | .error e => (.error (.transform e), lake)
    | .ok (ticks, failures) =>
      if fault = .makedirs then (.error .osError, lake)
      else
        match removeStale fault stale lake with
        | (.error e, lake) => (.error e, lake)
        | (.ok (), lake) =>
          let result : SilverTransformResult := {
            symbol := m.symbol
            date := m.date
            linesRead := rawLines.length
            duplicatesDropped := dropped
            normalizationFailures := failures
            rowsWritten := 0
            outputFiles := [] }
          if ticks = [] then (.ok result, lake)
          else
            match ticks.mapM silverRow with
            | .error e => (.error (.transform e), lake)
            | .ok rows =>
              if fault = .write then (.error .osError, lake)
              else
                (.ok { result with
                  rowsWritten := ticks.length, outputFiles := [m.outPath outputDir] },
                  lake ++ [{ path := m.outPath outputDir, rows }])

/-! ## What is removed -/

/-- The stale files that are removed before a fault ends the loop. -/
def removed (fault : Fault) (stale : List (List Str)) : List (List Str) :=
  match fault with
  | .remove n => stale.take n
  | _ => stale

/-- The loop takes the removed files out of the lake, and raises where the fault is in it. -/
theorem removeStale_eq (fault : Fault) (stale : List (List Str)) (lake : SilverLake) :
    (removeStale fault stale lake).2 =
      lake.filter fun file ↦ file.path ∉ removed fault stale := by
  have hnone : ∀ lake : SilverLake,
      lake = lake.filter fun file ↦ file.path ∉ ([] : List (List Str)) :=
    fun lake ↦ (List.filter_eq_self.mpr fun file _ ↦ by simp).symm
  have hcons : ∀ (lake : SilverLake) (path : List Str) (rest : List (List Str)),
      ((lake.filter fun file ↦ file.path ≠ path).filter fun file ↦ file.path ∉ rest) =
        lake.filter fun file ↦ file.path ∉ path :: rest := by
    intro lake path rest
    rw [List.filter_filter]
    refine List.filter_congr fun file _ ↦ ?_
    simp [Bool.and_comm]
  induction stale generalizing fault lake with
  | nil =>
    have hremoved : removed fault [] = [] := by
      cases fault with
      | remove n => exact List.take_nil
      | _ => rfl
    rw [hremoved, removeStale]
    exact hnone lake
  | cons path rest ih =>
    match fault with
    | .remove 0 => exact hnone lake
    | .remove (n + 1) => exact (ih (.remove n) _).trans (hcons lake path (rest.take n))
    | .none => exact (ih .none _).trans (hcons lake path rest)
    | .makedirs => exact (ih .makedirs _).trans (hcons lake path rest)
    | .write => exact (ih .write _).trans (hcons lake path rest)

/-- Removing all that the glob lists clears the partition. -/
theorem filter_stale {outputDir : List Str} {p : Partition} {lake : SilverLake}
    {stale : List (List Str)} (hstale : stale.Perm (found outputDir p lake)) :
    (lake.filter fun file ↦ file.path ∉ stale) = clearPartition outputDir p lake := by
  refine List.filter_congr fun file hfile ↦ ?_
  have hmem : file.path ∈ stale ↔ finds outputDir p file.path = true := by
    rw [hstale.mem_iff, found, List.mem_filter]
    exact and_iff_right (List.mem_map_of_mem hfile)
  simp [hmem]

/-- **Where no fault strikes**, the function is the transform. -/
theorem transformFaulty_none {outputDir : List Str} {lake : SilverLake} {m : Materialization}
    {stale : List (List Str)} (hstale : stale.Perm (found outputDir m.partition lake))
    (bucket : Bucket) : transformFaulty .none stale bucket outputDir lake m =
      ((transformSymbolDate bucket outputDir lake m).1.mapError .transform,
        (transformSymbolDate bucket outputDir lake m).2) := by
  have hclear : removeStale .none stale lake =
      (.ok (), clearPartition outputDir m.partition lake) := by
    refine Prod.ext ?_ ((removeStale_eq .none stale lake).trans (filter_stale hstale))
    clear hstale
    induction stale generalizing lake with
    | nil => rfl
    | cons path rest ih => exact ih
  rw [transformFaulty, transformSymbolDate]
  cases bronzeLines bucket m.partition with
  | error e => rfl
  | ok rawLines =>
    dsimp only
    cases normalizeLines m.clock (fun _ ↦ 0) (dedupLines [] rawLines).1 with
    | error e => rfl
    | ok normalized =>
      dsimp only
      rw [hclear, if_neg (by decide)]
      dsimp only
      split
      · rfl
      · cases normalized.1.mapM silverRow with
        | error e => rfl
        | ok rows => rfl

/-- The run raises before it touches a file: it cannot read its lines, or `normalize` raises on
one of them, or the directory cannot be made. -/
def RaisesEarly (fault : Fault) (bucket : Bucket) (m : Materialization) : Prop :=
  match bronzeLines bucket m.partition with
  | .error _ => True
  | .ok rawLines =>
    match normalizeLines m.clock (fun _ ↦ 0) (dedupLines [] rawLines).1 with
    | .error _ => True
    | .ok _ => fault = .makedirs

/-- **The lake after a run that raises**: as before, if it raised early, and without the files that
were removed else. -/
theorem lake_of_raised {fault : Fault} {stale : List (List Str)} {bucket : Bucket}
    {outputDir : List Str} {lake lake' : SilverLake} {m : Materialization} {e : RunError}
    (h : transformFaulty fault stale bucket outputDir lake m = (.error e, lake')) :
    (RaisesEarly fault bucket m ∧ lake' = lake) ∨
      (¬ RaisesEarly fault bucket m ∧
        lake' = lake.filter fun file ↦ file.path ∉ removed fault stale) := by
  have hremoved := removeStale_eq fault stale lake
  rw [transformFaulty] at h
  rw [RaisesEarly]
  split at h
  · cases h
    exact .inl ⟨trivial, rfl⟩
  · rename_i rawLines hlines
    dsimp only at h
    split at h
    · rename_i e' hnormalized
      cases h
      rw [hnormalized]
      exact .inl ⟨trivial, rfl⟩
    · rename_i ticks failures hnormalized
      rw [hnormalized]
      split at h
      · rename_i hmakedirs
        cases h
        exact .inl ⟨hmakedirs, rfl⟩
      · rename_i hmakedirs
        refine .inr ⟨hmakedirs, ?_⟩
        split at h
        · rename_i e' lake₁ hstale
          rw [hstale] at hremoved
          cases h
          exact hremoved
        · rename_i lake₁ hstale
          rw [hstale] at hremoved
          dsimp only at h hremoved
          split at h
          · cases h
          · split at h
            · cases h
              exact hremoved
            · split at h
              · cases h
                exact hremoved
              · cases h

/-- Of the files of the partition, those whose paths are not among the removed ones are left. -/
theorem partitionFiles_filter_eq_iff {outputDir : List Str} {p : Partition} {lake : SilverLake}
    {paths : List (List Str)} (hpaths : ∀ path ∈ paths, path ∈ lake.map SilverFile.path) :
    partitionFiles outputDir p (lake.filter fun file ↦ file.path ∉ paths) =
        partitionFiles outputDir p lake ↔
      ∀ path ∈ paths, path.dropLast ≠ partitionDir outputDir p := by
  have hswap : partitionFiles outputDir p (lake.filter fun file ↦ file.path ∉ paths) =
      (partitionFiles outputDir p lake).filter fun file ↦ file.path ∉ paths := by
    rw [partitionFiles, partitionFiles, List.filter_filter, List.filter_filter]
    exact List.filter_congr fun file _ ↦ Bool.and_comm _ _
  rw [hswap, List.filter_eq_self]
  constructor
  · intro hkept path hpath hdir
    obtain ⟨file, hfile, rfl⟩ := List.mem_map.mp (hpaths path hpath)
    exact of_decide_eq_true (hkept file (List.mem_filter.mpr ⟨hfile, decide_eq_true hdir⟩)) hpath
  · intro hspared file hfile
    refine decide_eq_true fun hmem ↦ hspared file.path hmem ?_
    exact of_decide_eq_true (List.mem_filter.mp hfile).2

theorem mem_of_mem_removed {fault : Fault} {stale : List (List Str)} {path : List Str}
    (h : path ∈ removed fault stale) : path ∈ stale := by
  match fault with
  | .remove n => exact List.mem_of_mem_take h
  | .none => exact h
  | .makedirs => exact h
  | .write => exact h

/-- **When a failed rebuild leaves silver as it was.**  After a run that raised, the partition has
the files it had before exactly when the run raised before it cleared the partition, or no file of
the partition was removed. -/
theorem failed_rebuild_keeps_iff {fault : Fault} {stale : List (List Str)} {bucket : Bucket}
    {outputDir : List Str} {lake lake' : SilverLake} {m : Materialization} {e : RunError}
    (hstale : stale.Perm (found outputDir m.partition lake))
    (h : transformFaulty fault stale bucket outputDir lake m = (.error e, lake')) :
    partitionFiles outputDir m.partition lake' = partitionFiles outputDir m.partition lake ↔
      RaisesEarly fault bucket m ∨
        ∀ path ∈ removed fault stale, path.dropLast ≠ partitionDir outputDir m.partition := by
  have hpaths : ∀ path ∈ removed fault stale, path ∈ lake.map SilverFile.path := fun path hpath ↦
    List.mem_of_mem_filter (hstale.mem_iff.mp (mem_of_mem_removed hpath))
  rcases lake_of_raised h with ⟨hearly, rfl⟩ | ⟨hlate, rfl⟩
  · exact iff_of_true rfl (.inl hearly)
  · rw [partitionFiles_filter_eq_iff hpaths]
    exact (or_iff_right hlate).symm

/-! ### A price without a place -/

instance (fault : Fault) (bucket : Bucket) (m : Materialization) :
    Decidable (RaisesEarly fault bucket m) :=
  match hlines : bronzeLines bucket m.partition with
  | .error _ => isTrue (by rw [RaisesEarly, hlines]; trivial)
  | .ok rawLines =>
    match hnormalized : normalizeLines m.clock (fun _ ↦ 0) (dedupLines [] rawLines).1 with
    | .error _ => isTrue (by rw [RaisesEarly, hlines]; dsimp only; rw [hnormalized]; trivial)
    | .ok _ => decidable_of_iff (fault = .makedirs) (by
        rw [RaisesEarly, hlines]
        dsimp only
        rw [hnormalized])

/-- A bucket with one trade of the partition at a price. -/
def tradeAt (p : Partition) (price : String) : Bucket :=
  Bucket.empty.put (tradeObject p "0" price)

/-- What a run raised. -/
def raisedBy (ran : Except RunError SilverTransformResult × SilverLake) : Option RunError :=
  match ran.1 with
  | .error e => some e
  | .ok _ => none

theorem eq_of_raisedBy {ran : Except RunError SilverTransformResult × SilverLake} {e : RunError}
    (h : raisedBy ran = some e) : ran = (.error e, ran.2) := by
  obtain ⟨_ | _, lake⟩ := ran
  · cases h
    rfl
  · cases h

/-- A run with the file of another one before it. -/
def rerunAt (price : String) : Except RunError SilverTransformResult × SilverLake :=
  transformFaulty .none [(tradeFile btcFirst).path] (tradeAt btcFirst price) ["silver".toList]
    [tradeFile btcFirst] (runFor btcFirst)

/-- A trade whose price is none of the finite numbers raises before anything is cleared. -/
theorem failed_rebuild_keeps_of_nan :
    raisedBy (rerunAt "NaN") = some (.transform (.normalize .validationError)) ∧
    partitionFiles ["silver".toList] btcFirst (rerunAt "NaN").2 =
      partitionFiles ["silver".toList] btcFirst [tradeFile btcFirst] := by
  have hraised : raisedBy (rerunAt "NaN") = some (.transform (.normalize .validationError)) := by
    decide +kernel
  have hstale : [(tradeFile btcFirst).path].Perm
      (found ["silver".toList] (runFor btcFirst).partition [tradeFile btcFirst]) := by
    decide +kernel
  refine ⟨hraised, ?_⟩
  exact (failed_rebuild_keeps_iff hstale (eq_of_raisedBy hraised)).mpr (.inl (by decide +kernel))

/-- A price in billionths has no place in the columns.  The file of the partition is gone. -/
theorem failed_rebuild_loses_silver :
    raisedBy (rerunAt "0.000000001") = some (.transform .arrowInvalid) ∧
    partitionFiles ["silver".toList] btcFirst [tradeFile btcFirst] = [tradeFile btcFirst] ∧
    partitionFiles ["silver".toList] btcFirst (rerunAt "0.000000001").2 = [] ∧
    ¬ partitionFiles ["silver".toList] btcFirst (rerunAt "0.000000001").2 =
      partitionFiles ["silver".toList] btcFirst [tradeFile btcFirst] :=
  ⟨by decide +kernel, by decide +kernel, by decide +kernel, by decide +kernel⟩

end PostTrade
