import Mathlib

/-!
# Data tests

Tests of tables, as two tools have them.  A test of dbt is a query for what speaks against it, and
passes when the query returns nothing.  An expectation of Great Expectations is met when every row
is as expected.  A column is read as an `Option`, where `none` is null: apart from the tests for
null itself, both tools pass over rows whose value is null.

What each of them asks of the rows is said right after it.
-/

set_option autoImplicit false

namespace DataTests

variable {α β : Type*}

/-! ## Tests of dbt -/

/-- `not_null`: the rows without a value. -/
def notNull (column : α → Option β) (rows : List α) : List α :=
  rows.filter fun r ↦ (column r).isNone

theorem notNull_eq_nil_iff {column : α → Option β} {rows : List α} :
    notNull column rows = [] ↔ ∀ r ∈ rows, (column r).isSome = true := by
  rw [notNull, List.filter_eq_nil_iff]
  exact forall₂_congr fun r _ ↦ by rw [Option.isNone_iff_eq_none, Option.isSome_iff_ne_none]

/-- A column that cannot be null is not. -/
theorem notNull_some (f : α → β) (rows : List α) : notNull (fun r ↦ some (f r)) rows = [] :=
  notNull_eq_nil_iff.mpr fun _ _ ↦ rfl

section

variable [DecidableEq β]

/-- The values of a column, each with the number of rows that have it. -/
def groupBy (column : α → Option β) (rows : List α) : List (β × ℕ) :=
  (rows.filterMap column).dedup.map fun v ↦ (v, (rows.filterMap column).count v)

/-- `unique`: the values that more than one row has. -/
def unique (column : α → Option β) (rows : List α) : List (β × ℕ) :=
  (groupBy column rows).filter fun group ↦ 1 < group.2

theorem unique_eq_nil_iff {column : α → Option β} {rows : List α} :
    unique column rows = [] ↔ (rows.filterMap column).Nodup := by
  rw [unique, List.filter_eq_nil_iff, groupBy, List.forall_mem_map, List.nodup_iff_count_le_one]
  simp only [List.mem_dedup, decide_eq_true_eq, not_lt]
  constructor
  · intro h v
    by_cases hv : v ∈ rows.filterMap column
    · exact h v hv
    · rw [List.count_eq_zero_of_not_mem hv]
      exact Nat.zero_le 1
  · exact fun h v _ ↦ h v

/-- A column that cannot be null. -/
theorem unique_some_eq_nil_iff {f : α → β} {rows : List α} :
    unique (fun r ↦ some (f r)) rows = [] ↔ (rows.map f).Nodup := by
  rw [unique_eq_nil_iff, ← List.filterMap_eq_map]
  rfl

/-- `accepted_values`: the values that are none of those given. -/
def acceptedValues (column : α → Option β) (values : List β) (rows : List α) : List (β × ℕ) :=
  (groupBy column rows).filter fun group ↦ group.1 ∉ values

/-- `relationships`: the values that are not in the column of the parent table. -/
def relationships (column : α → Option β) (parent : List β) (rows : List α) : List β :=
  (rows.filterMap column).filter fun v ↦ v ∉ parent

theorem relationships_eq_nil_iff {column : α → Option β} {parent : List β} {rows : List α} :
    relationships column parent rows = [] ↔ ∀ r ∈ rows, ∀ v ∈ column r, v ∈ parent := by
  rw [relationships, List.filter_eq_nil_iff]
  simp only [List.mem_filterMap, decide_eq_true_eq, not_not, forall_exists_index, and_imp]
  exact ⟨fun h r hr v hv ↦ h v r hr hv, fun h v r hr hv ↦ h r hr v hv⟩

end

/-! ## Expectations of Great Expectations -/

/-- `ExpectColumnValuesToNotBeNull`. -/
def columnValuesToNotBeNull (column : α → Option β) (rows : List α) : Bool :=
  rows.all fun r ↦ (column r).isSome

/-- A column that cannot be null is not. -/
theorem columnValuesToNotBeNull_some (f : α → β) (rows : List α) :
    columnValuesToNotBeNull (fun r ↦ some (f r)) rows = true :=
  List.all_eq_true.mpr fun _ _ ↦ rfl

/-- `ExpectColumnValuesToBeBetween`, with either bound or both. -/
def columnValuesToBeBetween [LE β] [DecidableLE β] (column : α → Option β)
    (minValue maxValue : Option β) (rows : List α) : Bool :=
  rows.all fun r ↦ (column r).all fun v ↦ minValue.all (· ≤ v) && maxValue.all (v ≤ ·)

theorem columnValuesToBeBetween_iff [LE β] [DecidableLE β] {column : α → Option β}
    {minValue maxValue : Option β} {rows : List α} :
    columnValuesToBeBetween column minValue maxValue rows = true ↔ ∀ r ∈ rows, ∀ v ∈ column r,
      (∀ m ∈ minValue, m ≤ v) ∧ ∀ m ∈ maxValue, v ≤ m := by
  simp [columnValuesToBeBetween, Option.all_eq_true]

/-- `ExpectColumnValuesToBeInSet`. -/
def columnValuesToBeInSet [DecidableEq β] (column : α → Option β) (valueSet : List β)
    (rows : List α) : Bool :=
  rows.all fun r ↦ (column r).all fun v ↦ v ∈ valueSet

theorem columnValuesToBeInSet_iff [DecidableEq β] {column : α → Option β} {valueSet : List β}
    {rows : List α} :
    columnValuesToBeInSet column valueSet rows = true ↔
      ∀ r ∈ rows, ∀ v ∈ column r, v ∈ valueSet := by
  simp [columnValuesToBeInSet, Option.all_eq_true]

/-- `ExpectColumnPairValuesAToBeGreaterThanB`, equal values being fine too. -/
def columnPairValuesAToBeGreaterThanB [LE β] [DecidableLE β] (columnA columnB : α → Option β)
    (rows : List α) : Bool :=
  rows.all fun r ↦
    match columnA r, columnB r with
    | some a, some b => b ≤ a
    | none, none => true
    -- one of the two is missing
    | _, _ => false

/-- Columns that cannot be null. -/
theorem columnPairValuesAToBeGreaterThanB_some_iff [LE β] [DecidableLE β] {f g : α → β}
    {rows : List α} :
    columnPairValuesAToBeGreaterThanB (fun r ↦ some (f r)) (fun r ↦ some (g r)) rows = true ↔
      ∀ r ∈ rows, g r ≤ f r := by
  simp [columnPairValuesAToBeGreaterThanB]

/-- `ExpectCompoundColumnsToBeUnique`, of columns that are read together. -/
def compoundColumnsToBeUnique [DecidableEq β] (columns : α → Option β) (rows : List α) : Bool :=
  (rows.filterMap columns).Nodup

/-- Columns that cannot be null. -/
theorem compoundColumnsToBeUnique_some_iff [DecidableEq β] {f : α → β} {rows : List α} :
    compoundColumnsToBeUnique (fun r ↦ some (f r)) rows = true ↔ (rows.map f).Nodup := by
  rw [compoundColumnsToBeUnique, decide_eq_true_eq, ← List.filterMap_eq_map]
  rfl

end DataTests
