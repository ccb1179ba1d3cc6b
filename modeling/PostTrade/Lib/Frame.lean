import Mathlib

/-!
# Columns of a table: dictionaries, sorting and running sums

The idioms a data frame is worked over with, as functions on lists, and the laws that make them
usable without unfolding.

* `Dict.get` looks a key up in `dict(zip(keys, values))`: among the pairs with the key, the last
  one wins.
* `sortBy` is a stable sort by a key.
* `cumsum` is the running sum of a column.  Over rows that are sorted by a key which no two of
  them share, the running sum at a row is `prefixTotal`, the total of the rows whose key is at
  most that row's key (`cumsum_map`) — a quantity that no longer mentions the order of the rows,
  so it is the same for every permutation of them (`prefixTotal_perm`).
-/

set_option autoImplicit false

namespace Frame

/-! ## Dictionaries built from pairs -/

section Dict

variable {κ ν : Type*} [DecidableEq κ]

/-- `dict(pairs).get(k)`: later pairs overwrite earlier ones. -/
def Dict.get : List (κ × ν) → κ → Option ν
  | [], _ => none
  | (k, v) :: rest, x => (Dict.get rest x).or (if k = x then some v else none)

theorem Dict.mem_of_get {l : List (κ × ν)} {x : κ} {v : ν} (h : Dict.get l x = some v) :
    (x, v) ∈ l := by
  induction l with
  | nil => simp [Dict.get] at h
  | cons p rest ih =>
    obtain ⟨k, w⟩ := p
    rw [Dict.get, Option.or_eq_some_iff] at h
    rcases h with h | ⟨-, h⟩
    · exact List.mem_cons_of_mem _ (ih h)
    · split at h
      · rename_i hk
        cases h
        simp [hk]
      · cases h

theorem Dict.get_eq_none_iff {l : List (κ × ν)} {x : κ} :
    Dict.get l x = none ↔ x ∉ l.map Prod.fst := by
  induction l with
  | nil => simp [Dict.get]
  | cons p rest ih =>
    obtain ⟨k, w⟩ := p
    rw [Dict.get, Option.or_eq_none_iff, ih]
    simp [eq_comm, and_comm]

/-- With no repeated key, the lookup finds what was put in. -/
theorem Dict.get_eq_some_iff {l : List (κ × ν)} (hnd : (l.map Prod.fst).Nodup) {x : κ} {v : ν} :
    Dict.get l x = some v ↔ (x, v) ∈ l := by
  refine ⟨Dict.mem_of_get, fun h ↦ ?_⟩
  cases hg : Dict.get l x with
  | none => exact absurd (List.mem_map_of_mem (f := Prod.fst) h) (Dict.get_eq_none_iff.mp hg)
  | some w =>
    have hw := Dict.mem_of_get hg
    have := List.inj_on_of_nodup_map hnd h hw rfl
    simp_all

end Dict

/-! ## Sorting by a key -/

section Sorting

variable {α κ : Type*} [LinearOrder κ]

/-- `df.sort_values(key)`. -/
def sortBy (key : α → κ) (l : List α) : List α := l.insertionSort fun a b ↦ key a ≤ key b

theorem sortBy_perm (key : α → κ) (l : List α) : (sortBy key l).Perm l :=
  List.perm_insertionSort _ l

@[simp] theorem mem_sortBy {key : α → κ} {l : List α} {a : α} : a ∈ sortBy key l ↔ a ∈ l :=
  (sortBy_perm key l).mem_iff

theorem sortBy_pairwise (key : α → κ) (l : List α) :
    (sortBy key l).Pairwise fun a b ↦ key a ≤ key b := by
  have : Std.Total fun a b : α ↦ key a ≤ key b := ⟨fun a b ↦ le_total (key a) (key b)⟩
  have : IsTrans α fun a b : α ↦ key a ≤ key b := ⟨fun _ _ _ h h' ↦ h.trans h'⟩
  exact List.pairwise_insertionSort _ l

/-- Sorting by a key of the image is sorting the image. -/
theorem map_sortBy {β : Type*} (f : α → β) (key : β → κ) (l : List α) :
    (sortBy (fun a ↦ key (f a)) l).map f = sortBy key (l.map f) :=
  List.map_insertionSort _ _ f l fun _ _ _ _ ↦ .rfl

/-- Rows whose keys increase are left as they are. -/
theorem sortBy_eq_self {key : α → κ} {l : List α} (h : l.Pairwise fun a b ↦ key a ≤ key b) :
    sortBy key l = l := h.insertionSort_eq

/-- Sorting rows whose keys are distinct puts the keys in strictly increasing order. -/
theorem sortBy_pairwise_lt (key : α → κ) {l : List α} (hnd : (l.map key).Nodup) :
    (sortBy key l).Pairwise fun a b ↦ key a < key b := by
  have hnd' : ((sortBy key l).map key).Nodup := ((sortBy_perm key l).map key).nodup_iff.mpr hnd
  rw [List.Nodup, List.pairwise_map] at hnd'
  exact (List.pairwise_and_iff.mpr ⟨sortBy_pairwise key l, hnd'⟩).imp
    fun h ↦ lt_of_le_of_ne h.1 h.2

/-- Rows with distinct keys are sorted the same way in whatever order they come. -/
theorem sortBy_eq_of_perm (key : α → κ) {l m : List α} (hnd : (l.map key).Nodup)
    (h : l.Perm m) : sortBy key l = sortBy key m := by
  have hnd' : (m.map key).Nodup := (h.map key).nodup_iff.mp hnd
  refine List.Perm.eq_of_pairwise (fun a b _ _ hab hba ↦ absurd hab hba.not_gt)
    (sortBy_pairwise_lt key hnd) (sortBy_pairwise_lt key hnd') ?_
  exact (sortBy_perm key l).trans (h.trans (sortBy_perm key m).symm)

/-- Rows are the same but for their order, if those of each key are. -/
theorem perm_of_filter_perm {α κ : Type*} [DecidableEq κ] (key : α → κ) {l m : List α}
    (h : ∀ k, (l.filter fun a ↦ key a = k).Perm (m.filter fun a ↦ key a = k)) : l.Perm m := by
  classical
  rw [List.perm_iff_count]
  intro a
  have ha := (h (key a)).count_eq a
  rwa [List.count_filter (by simp), List.count_filter (by simp)] at ha

/-- Rows sorted by a key are determined by the rows of each key. -/
theorem eq_of_filter_eq [DecidableEq κ] (key : α → κ) {l m : List α}
    (hl : l.Pairwise fun a b ↦ key a ≤ key b) (hm : m.Pairwise fun a b ↦ key a ≤ key b)
    (h : ∀ k, (l.filter fun a ↦ key a = k) = m.filter fun a ↦ key a = k) : l = m := by
  have hmem : ∀ {l m : List α},
      (∀ k, (l.filter fun a ↦ key a = k) = m.filter fun a ↦ key a = k) → ∀ a, a ∈ l ↔ a ∈ m := by
    intro l m h a
    simpa using congrArg (a ∈ ·) (h (key a))
  induction l generalizing m with
  | nil => exact (List.eq_nil_iff_forall_not_mem.mpr fun a ha ↦ nomatch (hmem h a).mpr ha).symm
  | cons a l ih =>
    have hmem := hmem h
    cases m with
    | nil => exact nomatch (hmem a).mp List.mem_cons_self
    | cons b m =>
      rw [List.pairwise_cons] at hl hm
      -- both begin with a row of the least key
      have hkey : key a = key b := by
        refine le_antisymm ?_ ?_
        · rcases List.mem_cons.mp ((hmem b).mpr List.mem_cons_self) with rfl | hb
          · exact le_rfl
          · exact hl.1 b hb
        · rcases List.mem_cons.mp ((hmem a).mp List.mem_cons_self) with rfl | ha
          · exact le_rfl
          · exact hm.1 a ha
      have hhead := h (key a)
      simp only [List.filter_cons, hkey, decide_true, if_true, List.cons.injEq] at hhead
      obtain rfl : a = b := hhead.1
      have htail : ∀ k, (l.filter fun a ↦ key a = k) = m.filter fun a ↦ key a = k := by
        intro k
        have hk := h k
        simp only [List.filter_cons] at hk
        split at hk
        · exact (List.cons.inj hk).2
        · exact hk
      rw [ih hl.2 hm.2 htail]

end Sorting

/-! ## Running sums -/

section Sum

variable {M : Type*} [AddCommMonoid M]

/-- The running sums of a column, on top of what `acc` has already collected. -/
def cumsumFrom (acc : M) : List M → List M
  | [] => []
  | x :: xs => (acc + x) :: cumsumFrom (acc + x) xs

/-- `column.cumsum()`. -/
def cumsum (l : List M) : List M := cumsumFrom 0 l

variable {α κ : Type*} [LinearOrder κ]

/-- The total of `val` over the rows whose key is at most `k`. -/
def prefixTotal (key : α → κ) (val : α → M) (l : List α) (k : κ) : M :=
  ((l.filter fun a ↦ key a ≤ k).map val).sum

variable (key : α → κ) (val : α → M)

theorem prefixTotal_cons (a : α) (l : List α) (k : κ) :
    prefixTotal key val (a :: l) k
      = (if key a ≤ k then val a else 0) + prefixTotal key val l k := by
  by_cases h : key a ≤ k <;> simp [prefixTotal, h]

theorem prefixTotal_append (l m : List α) (k : κ) :
    prefixTotal key val (l ++ m) k = prefixTotal key val l k + prefixTotal key val m k := by
  simp [prefixTotal]

/-- The total does not depend on the order of the rows. -/
theorem prefixTotal_perm {l m : List α} (h : l.Perm m) (k : κ) :
    prefixTotal key val l k = prefixTotal key val m k :=
  ((h.filter _).map val).sum_eq

theorem prefixTotal_eq_zero {l : List α} {k : κ} (h : ∀ a ∈ l, k < key a) :
    prefixTotal key val l k = 0 := by
  have : l.filter (fun a ↦ key a ≤ k) = [] := by
    rw [List.filter_eq_nil_iff]
    intro a ha
    simpa using h a ha
  simp [prefixTotal, this]

/-- Rows past every key in the table count the whole of it. -/
theorem prefixTotal_eq_sum {l : List α} {k : κ} (h : ∀ a ∈ l, key a ≤ k) :
    prefixTotal key val l k = (l.map val).sum := by
  have : l.filter (fun a ↦ key a ≤ k) = l := by
    rw [List.filter_eq_self]
    intro a ha
    simpa using h a ha
  rw [prefixTotal, this]

/-- A table splits into the rows that satisfy a test and those that fail it. -/
theorem prefixTotal_filter_add_not (p : α → Bool) (l : List α) (k : κ) :
    prefixTotal key val (l.filter p) k + prefixTotal key val (l.filter fun a ↦ !p a) k
      = prefixTotal key val l k := by
  rw [← prefixTotal_append]
  exact prefixTotal_perm key val (List.filter_append_perm p l) k

theorem cumsumFrom_map (acc : M) {l : List α} (h : l.Pairwise fun a b ↦ key a < key b) :
    cumsumFrom acc (l.map val) = l.map fun a ↦ acc + prefixTotal key val l (key a) := by
  induction l generalizing acc with
  | nil => rfl
  | cons x xs ih =>
    rw [List.pairwise_cons] at h
    rw [List.map_cons, cumsumFrom, List.map_cons, ih (acc + val x) h.2]
    congr 1
    · rw [prefixTotal_cons, if_pos le_rfl, prefixTotal_eq_zero key val h.1, add_zero]
    · refine List.map_congr_left fun y hy ↦ ?_
      rw [prefixTotal_cons, if_pos (h.1 y hy).le, add_assoc]

/-- **The running sum at a row is the total up to its key**, once the rows are in strictly
increasing order of that key. -/
theorem cumsum_map {l : List α} (h : l.Pairwise fun a b ↦ key a < key b) :
    cumsum (l.map val) = l.map fun a ↦ prefixTotal key val l (key a) := by
  rw [cumsum, cumsumFrom_map key val 0 h]
  simp only [zero_add]

end Sum

end Frame
