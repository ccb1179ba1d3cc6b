import PostTrade.Lib.Frame

/-!
# Columns of a grid

The rows of a full grid can be built column by column: a column repeats each of its values, or the
whole of them, as often as it takes for the columns to line up.  `zip_repeatEach_tile` is the step
that lines two of them up, and the grid is a product of lists.

The rows are then partitioned by a key, one part for each value of the key.  The parts together are
the rows again (`flatMap_partitionBy_perm`).
-/

set_option autoImplicit false

namespace Columns

variable {α β κ : Type*}

/-! ## Columns computed value by value -/

section Comprehension

variable {f : α → Option β}

/-- A list comprehension of which a value may raise. -/
theorem exists_mapM_eq_some_iff {xs : List α} :
    (∃ ys, xs.mapM f = some ys) ↔ ∀ x ∈ xs, ∃ y, f x = some y := by
  induction xs with
  | nil => exact iff_of_true ⟨[], rfl⟩ fun x hx ↦ absurd hx List.not_mem_nil
  | cons x xs ih =>
    rw [List.forall_mem_cons, ← ih]
    simp only [List.mapM_cons, Option.bind_eq_bind, Option.pure_def, Option.bind_eq_some_iff,
      Option.some.injEq]
    constructor
    · rintro ⟨_, y, hy, ys, hys, rfl⟩
      exact ⟨⟨y, hy⟩, ys, hys⟩
    · rintro ⟨⟨y, hy⟩, ys, hys⟩
      exact ⟨y :: ys, y, hy, ys, hys, rfl⟩

theorem forall₂_of_mapM_eq_some {xs : List α} {ys : List β} (h : xs.mapM f = some ys) :
    List.Forall₂ (fun x y ↦ f x = some y) xs ys := by
  induction xs generalizing ys with
  | nil =>
    cases h
    exact .nil
  | cons x xs ih =>
    simp only [List.mapM_cons, Option.bind_eq_bind, Option.pure_def, Option.bind_eq_some_iff,
      Option.some.injEq] at h
    obtain ⟨y, hy, ys', hys, rfl⟩ := h
    exact .cons hy (ih hys)

end Comprehension

/-! ## Repeating and tiling -/

/-- `np.repeat(xs, n)`: each element `n` times. -/
def repeatEach (xs : List α) (n : ℕ) : List α := xs.flatMap (List.replicate n)

/-- `np.tile(xs, n)`: all the elements, `n` times. -/
def tile (xs : List α) (n : ℕ) : List α := (List.replicate n xs).flatten

@[simp] theorem length_repeatEach (xs : List α) (n : ℕ) :
    (repeatEach xs n).length = xs.length * n := by
  rw [repeatEach, List.length_flatMap]
  simp

@[simp] theorem length_tile (xs : List α) (n : ℕ) : (tile xs n).length = n * xs.length := by
  simp [tile]

theorem tile_succ (xs : List α) (n : ℕ) : tile xs (n + 1) = xs ++ tile xs n := by
  rw [tile, List.replicate_succ, List.flatten_cons, tile]

theorem tile_add (xs : List α) (m n : ℕ) : tile xs (m + n) = tile xs m ++ tile xs n := by
  rw [tile, List.replicate_add, List.flatten_append, tile, tile]

/-- Tiling a tiled list. -/
theorem tile_mul (xs : List α) (m n : ℕ) : tile xs (m * n) = tile (tile xs n) m := by
  induction m with
  | zero => simp [tile]
  | succ m ih => rw [Nat.succ_mul, Nat.add_comm, tile_add, ih, tile_succ]

theorem zip_tile {xs : List α} {ys : List β} (h : xs.length = ys.length) (n : ℕ) :
    (tile xs n).zip (tile ys n) = tile (xs.zip ys) n := by
  induction n with
  | zero => rfl
  | succ n ih => rw [tile_succ, tile_succ, tile_succ, List.zip_append h, ih]

/-- **Repeating one list and tiling another pairs each with each.** -/
theorem zip_repeatEach_tile (xs : List α) (ys : List β) :
    (repeatEach xs ys.length).zip (tile ys xs.length) = xs ×ˢ ys := by
  induction xs with
  | nil => rfl
  | cons x xs ih =>
    have hrow : (List.replicate ys.length x).zip ys = ys.map fun y ↦ (x, y) := by
      rw [← List.map_const']
      exact List.map_prod_right_eq_zip.symm
    rw [repeatEach, List.flatMap_cons, List.length_cons, tile_succ,
      List.zip_append List.length_replicate, hrow, List.product_cons, ← ih, repeatEach]

section Select

variable [DecidableEq α]

/-- One value of the first column selects the whole of the second. -/
theorem filter_product {xs : List α} (hnd : xs.Nodup) (ys : List β) {x : α} (hx : x ∈ xs) :
    ((xs ×ˢ ys).filter fun p ↦ p.1 = x) = ys.map fun y ↦ (x, y) := by
  induction xs with
  | nil => cases hx
  | cons a xs ih =>
    obtain ⟨ha, hxs⟩ := List.nodup_cons.mp hnd
    rw [List.product_cons, List.filter_append]
    by_cases hax : a = x
    · subst hax
      have hrow : (ys.map fun y ↦ (a, y)).filter (fun p ↦ p.1 = a) = ys.map fun y ↦ (a, y) := by
        rw [List.filter_eq_self]
        simp
      have hrest : ((xs ×ˢ ys).filter fun p ↦ p.1 = a) = [] := by
        rw [List.filter_eq_nil_iff]
        rintro ⟨b, y⟩ hmem heq
        exact ha (of_decide_eq_true heq ▸ (List.mem_product.mp hmem).1)
      rw [hrow, hrest, List.append_nil]
    · have hrow : (ys.map fun y ↦ (a, y)).filter (fun p ↦ p.1 = x) = [] := by
        rw [List.filter_eq_nil_iff]
        simp [hax]
      rw [hrow, List.nil_append, ih hxs ((List.mem_cons.mp hx).resolve_left (Ne.symm hax))]

end Select

/-! ## Partitions -/

section Partition

variable [DecidableEq κ] {key : α → κ}

/-- The rows by key: one part for each value. -/
def partitionBy (key : α → κ) (rows : List α) : List (κ × List α) :=
  (rows.map key).dedup.map fun k ↦ (k, rows.filter fun row ↦ key row = k)

theorem partitionBy_eq_nil_iff {rows : List α} : partitionBy key rows = [] ↔ rows = [] := by
  rw [partitionBy, List.map_eq_nil_iff, List.dedup_eq_nil, List.map_eq_nil_iff]

/-- A value that only one of distinct elements has. -/
theorem flatMap_of_nodup {l : List κ} (hnd : l.Nodup) {k : κ} {f : κ → List α}
    (hf : ∀ k', k' ≠ k → f k' = []) : l.flatMap f = if k ∈ l then f k else [] := by
  induction l with
  | nil => rfl
  | cons a l ih =>
    obtain ⟨ha, hl⟩ := List.nodup_cons.mp hnd
    rw [List.flatMap_cons, ih hl]
    by_cases hak : a = k
    · subst hak
      rw [if_neg ha, List.append_nil, if_pos List.mem_cons_self]
    · rw [hf a hak, List.nil_append]
      exact if_congr (by rw [List.mem_cons, or_iff_right (Ne.symm hak)]) rfl rfl

/-- The parts of a partition together are the rows. -/
theorem flatMap_partitionBy_perm (key : α → κ) (rows : List α) :
    ((partitionBy key rows).flatMap Prod.snd).Perm rows := by
  refine Frame.perm_of_filter_perm key fun k ↦ List.Perm.of_eq ?_
  rw [partitionBy, List.flatMap_map, List.filter_flatMap,
    flatMap_of_nodup (List.nodup_dedup _) (k := k)]
  · split
    · rw [List.filter_filter]
      simp
    · rename_i hk
      rw [List.mem_dedup, List.mem_map] at hk
      refine (List.filter_eq_nil_iff.mpr fun row hrow heq ↦ ?_).symm
      exact hk ⟨row, hrow, of_decide_eq_true heq⟩
  · intro k' hk'
    rw [List.filter_filter, List.filter_eq_nil_iff]
    intro row _ h
    simp only [Bool.and_eq_true, decide_eq_true_eq] at h
    exact hk' (h.2.symm.trans h.1)

end Partition

end Columns
