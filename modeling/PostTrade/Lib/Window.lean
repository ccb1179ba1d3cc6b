import PostTrade.Lib.Frame
import PostTrade.Lib.Gaps
import PostTrade.Lib.Numbering

/-!
# Window functions

`lag` is the window function of SQL, over partitions sorted by the value it looks back at.  It jumps
nowhere exactly when no partition leaves out a number between two of its own (`lag_le_one_iff`);
that a value is there twice does not matter.

A log numbered key by key and then partitioned further is the case that matters: its partitions
leave nothing out exactly when, key by key, the log is done with a partition once it goes on to
another one (`Numbered.inTurn_iff`).
-/

set_option autoImplicit false

namespace Window

open Numbering

variable {α κ : Type*} [DecidableEq κ]

/-- The rows of a partition, sorted. -/
def partitionOf (part : α → κ) (value : α → ℤ) (rows : List α) (k : κ) : List α :=
  Frame.sortBy value (rows.filter fun r ↦ part r = k)

/-- `lag(value) over (partition by part order by value)`: every row with the value of the row before
it in its partition. -/
def lag (part : α → κ) (value : α → ℤ) (rows : List α) : List (α × Option ℤ) :=
  (rows.map part).dedup.flatMap fun k ↦
    (partitionOf part value rows k).zip
      (none :: (partitionOf part value rows k).map fun r ↦ some (value r))

variable {part : α → κ} {value : α → ℤ} {rows : List α}

theorem mem_partitionOf {k : κ} {r : α} :
    r ∈ partitionOf part value rows k ↔ r ∈ rows ∧ part r = k := by
  simp [partitionOf]

/-- Looking back along a list is going through its neighbours. -/
theorem filterMap_zip (value : α → ℤ) (prev : Option ℤ) (l : List α) :
    ((l.zip (prev :: l.map fun r ↦ some (value r))).filterMap fun row ↦
      row.2.map fun p ↦ (p, value row.1)) = Gaps.pairwise (prev.toList ++ l.map value) := by
  induction l generalizing prev with
  | nil =>
    cases prev with
    | none => simp [Gaps.pairwise]
    | some p => simp [Gaps.pairwise]
  | cons r rest ih =>
    have hrest := ih (some (value r))
    simp only [List.map_cons, List.zip_cons_cons, Option.toList_some, List.singleton_append]
      at hrest ⊢
    cases prev with
    | none => simpa using hrest
    | some p => simpa [Gaps.pairwise] using hrest

/-- What `lag` finds before a row is a neighbour in the partition. -/
theorem exists_lag_iff {p n : ℤ} : (∃ r, (r, some p) ∈ lag part value rows ∧ value r = n) ↔
    ∃ k, (p, n) ∈ Gaps.pairwise ((partitionOf part value rows k).map value) := by
  have hneighbours : ∀ k, (∃ r, (r, some p) ∈ (partitionOf part value rows k).zip
      (none :: (partitionOf part value rows k).map fun r ↦ some (value r)) ∧ value r = n) ↔
      (p, n) ∈ Gaps.pairwise ((partitionOf part value rows k).map value) := by
    intro k
    rw [← List.nil_append ((partitionOf part value rows k).map value), ← Option.toList_none,
      ← filterMap_zip]
    simp [List.mem_filterMap]
  simp only [← hneighbours, lag, List.mem_flatMap]
  constructor
  · rintro ⟨r, ⟨k, -, hr⟩, hn⟩
    exact ⟨k, r, hr, hn⟩
  · rintro ⟨k, r, hr, hn⟩
    obtain ⟨hrows, hk⟩ := mem_partitionOf.mp (List.of_mem_zip hr).1
    exact ⟨r, ⟨k, by simpa using ⟨r, hrows, hk⟩, hr⟩, hn⟩

/-- The number is the value of a row of the partition. -/
def Carried (part : α → κ) (value : α → ℤ) (rows : List α) (k : κ) (n : ℤ) : Prop :=
  ∃ r ∈ rows, part r = k ∧ value r = n

/-- **Where `lag` jumps nowhere**: where no partition leaves out a number between two of its
own. -/
theorem lag_le_one_iff : (∀ r p, (r, some p) ∈ lag part value rows → value r - p ≤ 1) ↔
    ∀ k m, ¬ Gaps.Between (Carried part value rows k) m := by
  have hsorted : ∀ k, ((partitionOf part value rows k).map value).Pairwise (· ≤ ·) :=
    fun k ↦ List.pairwise_map.mpr (Frame.sortBy_pairwise value _)
  have hcarried : ∀ k n, n ∈ (partitionOf part value rows k).map value ↔
      Carried part value rows k n := by
    intro k n
    simp [mem_partitionOf, Carried, and_assoc]
  constructor
  · intro h k m hm
    obtain ⟨⟨p, n⟩, hpair, hpm, hmn⟩ :=
      (Gaps.exists_pairwise_iff (hsorted k) m).mpr ((Gaps.Between.congr (hcarried k) m).mpr hm)
    obtain ⟨r, hr, rfl⟩ := exists_lag_iff.mpr ⟨k, hpair⟩
    have hle := h r p hr
    dsimp only at hpm hmn
    omega
  · intro h r p hr
    by_contra hjump
    obtain ⟨k, hpair⟩ := exists_lag_iff.mp ⟨r, hr, rfl⟩
    refine h k (p + 1) ((Gaps.Between.congr (hcarried k) _).mp ?_)
    exact (Gaps.exists_pairwise_iff (hsorted k) _).mp ⟨_, hpair, by simp, by
      show p + 1 < value r
      omega⟩

end Window

namespace Numbering

variable {α K κ : Type*} [DecidableEq K] {key : α → K} {number : α → ℤ} {xs : List α}

/-- Elements of one key carry their numbers in the order of the log. -/
theorem Numbered.pairwise_of_sublist (h : Numbered key number xs) {ys : List α}
    (hys : ys.Sublist xs) {k : K} (hkey : ∀ y ∈ ys, key y = k) :
    (ys.map number).Pairwise (· < ·) := by
  have hall : (ys.filter fun y ↦ key y = k) = ys :=
    List.filter_eq_self.mpr fun y hy ↦ decide_eq_true (hkey y hy)
  have hsub : (ys.map number).Sublist (numbers key number k xs) := by
    rw [← hall]
    exact (hys.filter _).map number
  rw [h k] at hsub
  exact (pairwise_oneTo _).sublist hsub

/-- Elements of one key are in the log in the order of their numbers. -/
theorem Numbered.sublist_of_pairwise (h : Numbered key number xs) {ys : List α} {k : K}
    (hys : ∀ y ∈ ys, y ∈ xs ∧ key y = k) (hlt : (ys.map number).Pairwise (· < ·)) :
    ys.Sublist xs := by
  have : Std.Antisymm fun x y ↦ number x < number y := ⟨fun _ _ h h' ↦ absurd h h'.asymm⟩
  have hsorted : (xs.filter fun x ↦ key x = k).Pairwise fun x y ↦ number x < number y := by
    have hnumbers : (numbers key number k xs).Pairwise (· < ·) := h k ▸ pairwise_oneTo _
    exact List.pairwise_map.mp hnumbers
  have hsubset : ys ⊆ xs.filter fun x ↦ key x = k := by
    intro y hy
    simpa using hys y hy
  have hnodup : ys.Nodup := List.Nodup.of_map number (hlt.imp fun h ↦ h.ne)
  exact (List.sublist_of_subperm_of_pairwise (List.subperm_of_subset hnodup hsubset)
    (List.pairwise_map.mp hlt) hsorted).trans List.filter_sublist

/-- The list is done with a part of a key once it goes on to another part of it. -/
def InTurn (keyOf : κ → K) (parts : List κ) : Prop :=
  ∀ g h, [g, h, g].Sublist parts → keyOf h = keyOf g → h = g

instance [DecidableEq κ] (keyOf : κ → K) (parts : List κ) : Decidable (InTurn keyOf parts) :=
  decidable_of_iff (∀ g ∈ parts, ∀ h ∈ parts,
      [g, h, g].Sublist parts → keyOf h = keyOf g → h = g) ⟨
    fun hturn g h hsub ↦ hturn g (hsub.subset (by simp)) h (hsub.subset (by simp)) hsub,
    fun hturn g _ h _ ↦ hturn g h⟩

omit [DecidableEq K] in
/-- Lists without a common key are in turn together where each of them is. -/
theorem inTurn_append {keyOf : κ → K} {xs ys : List κ}
    (h : ∀ x ∈ xs, ∀ y ∈ ys, keyOf x ≠ keyOf y) :
    InTurn keyOf (xs ++ ys) ↔ InTurn keyOf xs ∧ InTurn keyOf ys := by
  constructor
  · intro hturn
    exact ⟨fun g g' hsub ↦ hturn g g' (hsub.trans (List.sublist_append_left _ _)),
      fun g g' hsub ↦ hturn g g' (hsub.trans (List.sublist_append_right _ _))⟩
  · rintro ⟨hx, hy⟩ g g' hsub hkey
    obtain ⟨zs, ws, heq, hzs, hws⟩ := List.sublist_append_iff.mp hsub
    -- the first and the last are the same, so that they are in the same list
    have hapart : ¬ (g ∈ zs ∧ g ∈ ws) := fun hboth ↦
      h g (hzs.subset hboth.1) g (hws.subset hboth.2) rfl
    rcases List.cons_eq_append_iff.mp heq with ⟨rfl, rfl⟩ | ⟨zs', rfl, hrest⟩
    · exact hy g g' hws hkey
    · rcases List.eq_nil_or_concat' ws with rfl | ⟨ws', w, rfl⟩
      · rw [List.append_nil] at heq
        exact hx g g' (heq ▸ hzs) hkey
      · have hlast := congrArg List.getLast? heq
        rw [← List.append_assoc, List.getLast?_concat] at hlast
        obtain rfl : g = w := Option.some.inj hlast
        exact absurd ⟨List.mem_cons_self, List.mem_append_right _ List.mem_cons_self⟩ hapart

omit [DecidableEq K] in
theorem inTurn_flatMap {β : Type*} {keyOf : κ → K} {l : List β} {f : β → List κ}
    (hapart : l.Pairwise fun b c ↦ ∀ x ∈ f b, ∀ y ∈ f c, keyOf x ≠ keyOf y) :
    InTurn keyOf (l.flatMap f) ↔ ∀ b ∈ l, InTurn keyOf (f b) := by
  induction l with
  | nil => exact ⟨fun _ b hb ↦ (nomatch hb), fun _ g g' hsub ↦ (nomatch hsub)⟩
  | cons b rest ih =>
    obtain ⟨hb, hrest⟩ := List.pairwise_cons.mp hapart
    rw [List.flatMap_cons, inTurn_append, ih hrest, List.forall_mem_cons]
    intro x hx y hy
    obtain ⟨c, hc, hy⟩ := List.mem_flatMap.mp hy
    exact hb c hc x hx y hy

omit [DecidableEq K] in
/-- Where the keys are still told apart, it does not matter as what they are read. -/
theorem inTurn_map_read {β K' : Type*} {read : K → K'} {l : List (K × β)}
    (hread : Set.InjOn read (keysOf Prod.fst l)) :
    InTurn Prod.fst (l.map (Prod.map read id)) ↔ InTurn Prod.fst l := by
  constructor
  · intro hturn g g' hsub hkey
    have heq := hturn _ _ (hsub.map (Prod.map read id)) (congrArg read hkey)
    exact Prod.ext hkey (Prod.mk.inj heq).2
  · intro hturn g g' hsub hkey
    obtain ⟨ys, hys, hmap⟩ := List.sublist_map_iff.mp hsub
    obtain ⟨a, b, d, rfl⟩ := List.length_eq_three.mp (by simpa using congrArg List.length hmap.symm)
    simp only [List.map_cons, List.map_nil, List.cons.injEq, and_true] at hmap
    obtain ⟨rfl, rfl, hlast⟩ := hmap
    have hmem : ∀ y ∈ [a, b, d], y.1 ∈ keysOf Prod.fst l :=
      fun y hy ↦ ⟨y, hys.subset hy, rfl⟩
    simp only [List.mem_cons, List.not_mem_nil, or_false, forall_eq_or_imp, forall_eq] at hmem
    obtain ⟨ha, hb, hd⟩ := hmem
    obtain rfl : a = d := Prod.ext (hread ha hd (Prod.mk.inj hlast).1) (Prod.mk.inj hlast).2
    rw [hturn a b hys (hread hb ha hkey)]

/-- Each element with its place among those of its key, after the ones before. -/
def places (keyOf : κ → K) : List κ → List κ → List (κ × ℤ)
  | _, [] => []
  | before, g :: rest =>
    (g, count keyOf (keyOf g) before + 1) :: places keyOf (before ++ [g]) rest

/-- The numbers of a log say the places. -/
theorem Numbered.map_eq_places (before : List α) (h : Numbered key number (before ++ xs))
    (part : α → κ) (keyOf : κ → K) (hpart : ∀ x, keyOf (part x) = key x) :
    (xs.map fun x ↦ (part x, number x)) = places keyOf (before.map part) (xs.map part) := by
  induction xs generalizing before with
  | nil => rfl
  | cons x rest ih =>
    have hcount : count keyOf (keyOf (part x)) (before.map part) = count key (key x) before := by
      rw [count, List.countP_map, hpart]
      exact List.countP_congr fun y _ ↦ by simp [hpart]
    have hrest := ih (before ++ [x]) (by rwa [List.append_assoc])
    rw [List.map_cons, List.map_cons, places, hcount, ← h.number_eq, hrest, List.map_append]
    rfl

/-- **Where the parts of the keys leave nothing out**: where the log takes them in turn. -/
theorem Numbered.inTurn_iff (h : Numbered key number xs) (part : α → κ) (keyOf : κ → K)
    (hpart : ∀ x, keyOf (part x) = key x) : InTurn keyOf (xs.map part) ↔
      ∀ g m, ¬ Gaps.Between (Window.Carried part number xs g) m := by
  constructor
  · rintro hturn g m ⟨hmiss, ⟨_, ⟨a, ha, hga, rfl⟩, ham⟩, _, ⟨c, hc, hgc, rfl⟩, hmc⟩
    have hka : key a = keyOf g := by rw [← hga, hpart]
    have hkc : key c = keyOf g := by rw [← hgc, hpart]
    -- the number left out is that of an element of another part
    have hone := (h.exists_iff.mp ⟨a, ha, hka, rfl⟩).1
    have hcount := (h.exists_iff.mp ⟨c, hc, hkc, rfl⟩).2
    obtain ⟨b, hb, hkb, rfl⟩ := h.exists_iff.mpr ⟨hone.trans ham.le, hmc.le.trans hcount⟩
    have hsub : [a, b, c].Sublist xs := by
      refine h.sublist_of_pairwise (k := keyOf g) (by simp [*]) ?_
      simp [ham, hmc, ham.trans hmc]
    have hmap := hsub.map part
    rw [List.map_cons, List.map_cons, List.map_singleton, hga, hgc] at hmap
    exact hmiss ⟨b, hb, hturn g (part b) hmap (by rw [hpart, hkb]), rfl⟩
  · intro hwhole g g' hsub hkey
    by_contra hne
    obtain ⟨ys, hys, hmap⟩ := List.sublist_map_iff.mp hsub
    obtain ⟨a, b, c, rfl⟩ := List.length_eq_three.mp (by simpa using congrArg List.length hmap.symm)
    simp only [List.map_cons, List.map_nil, List.cons.injEq, and_true] at hmap
    obtain ⟨rfl, rfl, hgc⟩ := hmap
    have hsame : ∀ y ∈ [a, b, c], key y = key a := by
      have hc : key c = key a := by rw [← hpart c, ← hgc, hpart]
      have hb : key b = key a := by rw [← hpart b, hkey, hpart]
      simp [hb, hc]
    have hlt := h.pairwise_of_sublist hys hsame
    simp only [List.map_cons, List.map_nil, List.pairwise_cons, List.mem_cons] at hlt
    have hmem : ∀ y ∈ [a, b, c], y ∈ xs := fun y hy ↦ hys.subset hy
    simp only [List.mem_cons, List.not_mem_nil, or_false, forall_eq_or_imp, forall_eq] at hmem hsame
    refine hwhole (part a) (number b) ⟨?_, ⟨_, ⟨a, hmem.1, rfl, rfl⟩, hlt.1 _ (.inl rfl)⟩, _,
      ⟨c, hmem.2.2, hgc.symm, rfl⟩, hlt.2.1 _ (.inl rfl)⟩
    rintro ⟨x, hx, hpx, hnx⟩
    -- no two elements of a key share their number
    have hkx : key x = key b := by rw [hsame.2.1, ← hpart x, hpx, hpart]
    have heq := List.inj_on_of_nodup_map h.nodup hx hmem.2.1 (Prod.ext hkx hnx)
    exact hne (heq ▸ hpx)

end Numbering
