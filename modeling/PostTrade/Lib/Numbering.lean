import Mathlib

/-!
# Numbering a log, key by key

A counter for every key numbers the elements of a log as they are appended: the `n`-th element of a
key gets the number `n`, counted from one.  `Numbered` is what such a log looks like, whoever wrote
it, and `Counts` says that a family of counters is in step with the log.

Where the counters are in step, an element with the next number of its key keeps the log numbered
(`Numbered.concat`) and advancing that counter keeps the counters in step (`Counts.concat`).

Whoever reads the log under other keys finds the elements apart, and numbered, exactly where no two
keys are read as one (`Numbered.nodup_read_iff`, `Numbered.of_injOn`).
-/

set_option autoImplicit false

namespace Numbering

variable {α K : Type*} [DecidableEq K] {key : α → K} {number : α → ℤ}

/-- The numbers the elements of a key carry, in the order of the log. -/
def numbers (key : α → K) (number : α → ℤ) (k : K) (xs : List α) : List ℤ :=
  (xs.filter fun x ↦ key x = k).map number

/-- How many elements of a key the log has. -/
def count (key : α → K) (k : K) (xs : List α) : ℕ := xs.countP fun x ↦ key x = k

@[simp] theorem count_nil (k : K) : count key k [] = 0 := rfl

theorem count_append (k : K) (xs ys : List α) :
    count key k (xs ++ ys) = count key k xs + count key k ys := List.countP_append

theorem numbers_append (k : K) (xs ys : List α) :
    numbers key number k (xs ++ ys) = numbers key number k xs ++ numbers key number k ys := by
  rw [numbers, List.filter_append, List.map_append]
  rfl

theorem count_singleton (k : K) (x : α) : count key k [x] = if key x = k then 1 else 0 := by
  simp [count, List.countP_singleton]

theorem numbers_singleton (k : K) (x : α) :
    numbers key number k [x] = if key x = k then [number x] else [] := by
  simp only [numbers, List.filter_cons, List.filter_nil, decide_eq_true_eq]
  split
  · rfl
  · rfl

variable (number) in
theorem length_numbers (k : K) (xs : List α) :
    (numbers key number k xs).length = count key k xs := by
  rw [numbers, List.length_map, count, List.countP_eq_length_filter]

theorem mem_numbers {k : K} {xs : List α} {n : ℤ} :
    n ∈ numbers key number k xs ↔ ∃ x ∈ xs, key x = k ∧ number x = n := by
  simp only [numbers, List.mem_map, List.mem_filter, decide_eq_true_eq, and_assoc]

theorem count_pos_iff {k : K} {xs : List α} : 0 < count key k xs ↔ ∃ x ∈ xs, key x = k := by
  simp [count, List.countP_pos_iff]

/-- The first element of a key. -/
theorem exists_first {k : K} {xs : List α} (h : 0 < count key k xs) :
    ∃ before x after, xs = before ++ x :: after ∧ key x = k ∧ count key k before = 0 := by
  induction xs with
  | nil => simp at h
  | cons x xs ih =>
    by_cases hx : key x = k
    · exact ⟨[], x, xs, rfl, hx, rfl⟩
    · rw [← List.singleton_append, count_append, count_singleton, if_neg hx, Nat.zero_add] at h
      obtain ⟨before, y, after, rfl, hy, hbefore⟩ := ih h
      refine ⟨x :: before, y, after, rfl, hy, ?_⟩
      rw [← List.singleton_append, count_append, count_singleton, if_neg hx, hbefore]

/-- Where the numbers of a key increase, they tell what was appended before an element and what
after it. -/
theorem lt_of_pairwise {before after : List α} {x : α}
    (h : (numbers key number (key x) (before ++ x :: after)).Pairwise (· < ·)) :
    (∀ u ∈ before, key u = key x → number u < number x) ∧
      ∀ v ∈ after, key v = key x → number x < number v := by
  rw [← List.singleton_append, numbers_append, numbers_append, numbers_singleton, if_pos rfl,
    List.singleton_append, List.pairwise_append] at h
  obtain ⟨-, hafter, hbefore⟩ := h
  constructor
  · intro u hu hkey
    exact hbefore _ (mem_numbers.mpr ⟨u, hu, hkey, rfl⟩) _ List.mem_cons_self
  · intro v hv hkey
    exact (List.pairwise_cons.mp hafter).1 _ (mem_numbers.mpr ⟨v, hv, hkey, rfl⟩)

/-! ## The numbers from one to `n` -/

/-- The numbers `1, 2, …, n`. -/
def oneTo (n : ℕ) : List ℤ := (List.range n).map fun i : ℕ ↦ (i : ℤ) + 1

theorem oneTo_succ (n : ℕ) : oneTo (n + 1) = oneTo n ++ [(n : ℤ) + 1] := by
  rw [oneTo, List.range_succ, List.map_append]
  rfl

@[simp] theorem length_oneTo (n : ℕ) : (oneTo n).length = n := by
  rw [oneTo, List.length_map, List.length_range]

theorem mem_oneTo {n : ℕ} {m : ℤ} : m ∈ oneTo n ↔ 1 ≤ m ∧ m ≤ n := by
  simp only [oneTo, List.mem_map, List.mem_range]
  constructor
  · rintro ⟨i, hi, rfl⟩
    omega
  · rintro ⟨h1, hn⟩
    exact ⟨(m - 1).toNat, by omega, by omega⟩

theorem getElem?_oneTo {n i : ℕ} (h : i < n) : (oneTo n)[i]? = some ((i : ℤ) + 1) := by
  rw [oneTo, List.getElem?_map, List.getElem?_range h]
  rfl

theorem pairwise_oneTo (n : ℕ) : (oneTo n).Pairwise (· < ·) := by
  rw [oneTo, List.pairwise_map]
  exact List.pairwise_lt_range.imp fun h ↦ by omega

/-- **Counting from one again is out of order**: blocks counted from one each increase throughout
only where at most one of them has anything in it. -/
theorem pairwise_flatMap_oneTo_iff (ns : List ℕ) :
    (ns.flatMap oneTo).Pairwise (· < ·) ↔ (ns.filter fun n ↦ 0 < n).length ≤ 1 := by
  induction ns with
  | nil => simp
  | cons n ns ih =>
    rw [List.flatMap_cons, List.pairwise_append]
    rcases Nat.eq_zero_or_pos n with rfl | hn
    · rw [List.filter_cons_of_neg (by simp), ← ih]
      simp [oneTo]
    · rw [List.filter_cons_of_pos (by simpa using hn), List.length_cons]
      have hempty : (∀ a ∈ oneTo n, ∀ b ∈ ns.flatMap oneTo, a < b) ↔
          (ns.filter fun n ↦ 0 < n).length = 0 := by
        rw [List.length_eq_zero_iff, List.filter_eq_nil_iff]
        constructor
        · -- a later block begins with one, which is not above the one of this block
          intro h m hm hpos
          have hone : (1 : ℤ) ∈ oneTo n := mem_oneTo.mpr ⟨le_rfl, by omega⟩
          have hpos : 0 < m := of_decide_eq_true hpos
          exact lt_irrefl _ (h 1 hone 1
            (List.mem_flatMap.mpr ⟨m, hm, mem_oneTo.mpr ⟨le_rfl, by omega⟩⟩))
        · intro h a _ b hb
          obtain ⟨m, hm, hb⟩ := List.mem_flatMap.mp hb
          have hzero : m = 0 := by simpa using h m hm
          rw [hzero] at hb
          cases hb
      rw [hempty]
      constructor
      · rintro ⟨-, -, hzero⟩
        omega
      · intro hle
        exact ⟨pairwise_oneTo n, ih.mpr (by omega), by omega⟩

/-- A prefix of the numbers up to `n` is the numbers up to its length. -/
theorem eq_oneTo_of_prefix {l : List ℤ} {n : ℕ} (h : l <+: oneTo n) : l = oneTo l.length := by
  obtain ⟨rest, hrest⟩ := h
  refine List.ext_getElem? fun i ↦ ?_
  by_cases hi : i < l.length
  · have hin : i < n := by
      have := congrArg List.length hrest
      rw [List.length_append, length_oneTo] at this
      omega
    rw [getElem?_oneTo hi, ← getElem?_oneTo hin, ← hrest, List.getElem?_append_left hi]
  · rw [List.getElem?_eq_none (by omega), List.getElem?_eq_none (by rw [length_oneTo]; omega)]

/-! ## Numbered logs -/

/-- The elements of every key carry the numbers from one on, in the order of the log. -/
def Numbered (key : α → K) (number : α → ℤ) (xs : List α) : Prop :=
  ∀ k, numbers key number k xs = oneTo (count key k xs)

/-- The counters hold how many elements of each key the log has. -/
def Counts (key : α → K) (counters : K → ℕ) (xs : List α) : Prop :=
  ∀ k, counters k = count key k xs

/-- Keys and numbers are all that matters. -/
theorem numbered_map_iff {xs : List α} :
    Numbered Prod.fst Prod.snd (xs.map fun x ↦ (key x, number x)) ↔ Numbered key number xs := by
  have hcount : ∀ k, count Prod.fst k (xs.map fun x ↦ (key x, number x)) = count key k xs :=
    fun k ↦ List.countP_map
  have hnumbers : ∀ k, numbers Prod.fst Prod.snd k (xs.map fun x ↦ (key x, number x))
      = numbers key number k xs := by
    intro k
    rw [numbers, List.filter_map, List.map_map]
    rfl
  simp only [Numbered, hcount, hnumbers]

theorem Numbered.nil : Numbered key number [] := fun _ ↦ rfl

theorem Counts.nil : Counts key (fun _ ↦ 0) [] := fun _ ↦ rfl

/-- An element with the next number of its key keeps the log numbered. -/
theorem Numbered.concat {xs : List α} (h : Numbered key number xs) {x : α}
    (hx : number x = count key (key x) xs + 1) : Numbered key number (xs ++ [x]) := by
  intro k
  rw [numbers_append, count_append, numbers_singleton, count_singleton, h k]
  split
  · rename_i hk
    subst hk
    rw [oneTo_succ, hx]
  · rw [List.append_nil, Nat.add_zero]

/-- Advancing the counter of its key keeps the counters in step with the log. -/
theorem Counts.concat {xs : List α} {counters : K → ℕ} (h : Counts key counters xs) (x : α) :
    Counts key (Function.update counters (key x) (counters (key x) + 1)) (xs ++ [x]) := by
  intro k
  rw [count_append, count_singleton, ← h k]
  by_cases hk : key x = k
  · subst hk
    rw [Function.update_self, if_pos rfl]
  · rw [Function.update_of_ne (Ne.symm hk), if_neg hk, Nat.add_zero]

theorem Numbered.of_prefix {xs ys : List α} (h : Numbered key number ys) (hp : xs <+: ys) :
    Numbered key number xs := by
  intro k
  rw [← length_numbers number]
  obtain ⟨rest, rfl⟩ := hp
  refine eq_oneTo_of_prefix (n := count key k (xs ++ rest)) ?_
  rw [← h k, numbers_append]
  exact List.prefix_append _ _

/-- An element carries the number of elements of its key up to it. -/
theorem Numbered.number_eq {before after : List α} {x : α}
    (h : Numbered key number (before ++ x :: after)) :
    number x = count key (key x) before + 1 := by
  have hbefore : Numbered key number before := h.of_prefix (List.prefix_append _ _)
  have hx : Numbered key number (before ++ [x]) :=
    h.of_prefix ⟨after, by rw [List.append_assoc, List.singleton_append]⟩
  have hlast := hx (key x)
  rwa [numbers_append, count_append, numbers_singleton, count_singleton, if_pos rfl, if_pos rfl,
    hbefore (key x), oneTo_succ, List.append_cancel_left_eq, List.singleton_inj] at hlast

/-- Where all elements have one key, they are numbered throughout. -/
theorem Numbered.map_number {xs : List α} (h : Numbered key number xs) {k : K}
    (hkey : ∀ x ∈ xs, key x = k) : xs.map number = oneTo xs.length := by
  have hall : (xs.filter fun x ↦ key x = k) = xs :=
    List.filter_eq_self.mpr fun x hx ↦ decide_eq_true (hkey x hx)
  have hk := h k
  rwa [← length_numbers number, numbers, hall, List.length_map] at hk

/-- The numbers of a key are exactly those up to how many elements it has. -/
theorem Numbered.exists_iff {xs : List α} (h : Numbered key number xs) {k : K} {n : ℤ} :
    (∃ x ∈ xs, key x = k ∧ number x = n) ↔ 1 ≤ n ∧ n ≤ count key k xs := by
  rw [← mem_numbers, h k, mem_oneTo]

/-- Of two elements of one key the one that comes later has the larger number. -/
theorem Numbered.lt_of_getElem? {xs : List α} (h : Numbered key number xs) {i j : ℕ} {x y : α}
    (hi : xs[i]? = some x) (hj : xs[j]? = some y) (hkey : key x = key y) (hij : i < j) :
    number x < number y := by
  have hpairwise : (numbers key number (key y) xs).Pairwise (· < ·) := by
    rw [h (key y)]
    exact pairwise_oneTo _
  rw [numbers, List.pairwise_map, List.pairwise_filter, List.pairwise_iff_getElem] at hpairwise
  obtain ⟨hilt, rfl⟩ := List.getElem?_eq_some_iff.mp hi
  obtain ⟨hjlt, rfl⟩ := List.getElem?_eq_some_iff.mp hj
  exact hpairwise i j hilt hjlt hij (decide_eq_true hkey) (decide_eq_true rfl)

/-- Two elements of one key come in the order of their numbers. -/
theorem Numbered.lt_iff {xs : List α} (h : Numbered key number xs) {i j : ℕ} {x y : α}
    (hi : xs[i]? = some x) (hj : xs[j]? = some y) (hkey : key x = key y) :
    number x < number y ↔ i < j := by
  refine ⟨fun hlt ↦ ?_, h.lt_of_getElem? hi hj hkey⟩
  rcases lt_trichotomy i j with hij | rfl | hji
  · exact hij
  · rw [hi, Option.some_inj] at hj
    exact absurd (hj ▸ hlt) (lt_irrefl _)
  · exact absurd hlt (h.lt_of_getElem? hj hi hkey.symm hji).not_gt

/-- No two elements share both key and number. -/
theorem Numbered.nodup {xs : List α} (h : Numbered key number xs) :
    (xs.map fun x ↦ (key x, number x)).Nodup := by
  induction xs using List.reverseRecOn with
  | nil => exact List.nodup_nil
  | append_singleton xs x ih =>
    have hxs : Numbered key number xs := h.of_prefix (List.prefix_append _ _)
    rw [List.map_append, List.nodup_append]
    refine ⟨ih hxs, List.nodup_singleton _, ?_⟩
    rintro _ hmem _ hx rfl
    obtain ⟨y, hy, hyx⟩ := List.mem_map.mp hmem
    rw [List.map_singleton, List.mem_singleton, ← hyx, Prod.mk.injEq] at hx
    obtain ⟨hkey, hnumber⟩ := hx
    -- the last element of the key carries a number above those before it
    have hle := (hxs.exists_iff.mp ⟨y, hy, hkey, rfl⟩).2
    have hlast := h.number_eq
    omega

/-- Where there is an element of a key, there is the first one of it. -/
theorem Numbered.exists_one {xs : List α} (h : Numbered key number xs) {x : α} (hx : x ∈ xs) :
    ∃ first ∈ xs, key first = key x ∧ number first = 1 := by
  have hle := h.exists_iff.mp ⟨x, hx, rfl, rfl⟩
  exact h.exists_iff.mpr ⟨le_rfl, hle.1.trans hle.2⟩

/-! ## Keys read as others -/

/-- The keys of a log. -/
def keysOf (key : α → K) (xs : List α) : Set K := {k | ∃ x ∈ xs, key x = k}

section Read

variable {K' : Type*} {read : K → K'} {xs ys : List α}

omit [DecidableEq K] in
theorem injOn_keysOf_iff : Set.InjOn read (keysOf key xs) ↔
    ∀ x ∈ xs, ∀ y ∈ xs, read (key x) = read (key y) → key x = key y := by
  constructor
  · exact fun hread x hx y hy ↦ hread ⟨x, hx, rfl⟩ ⟨y, hy, rfl⟩
  · rintro hread _ ⟨x, hx, rfl⟩ _ ⟨y, hy, rfl⟩
    exact hread x hx y hy

/-- Read as others, keys and numbers tell the elements apart only where the keys are still told
apart: every key has a first element. -/
theorem Numbered.nodup_read_iff (h : Numbered key number xs) :
    (xs.map fun x ↦ (read (key x), number x)).Nodup ↔ Set.InjOn read (keysOf key xs) := by
  rw [injOn_keysOf_iff]
  constructor
  · intro hnodup x hx y hy heq
    obtain ⟨f, hf, hfx, hone⟩ := h.exists_one hx
    obtain ⟨g, hg, hgy, hone'⟩ := h.exists_one hy
    have hsame : f = g := List.inj_on_of_nodup_map hnodup hf hg
      (Prod.ext (by rw [hfx, hgy, heq]) (hone.trans hone'.symm))
    rw [← hfx, ← hgy, hsame]
  · intro hread
    refine (List.Nodup.of_map _ h.nodup).map_on fun x hx y hy heq ↦ ?_
    obtain ⟨hkey, hnumber⟩ := Prod.mk.inj heq
    exact List.inj_on_of_nodup_map h.nodup hx hy (Prod.ext (hread x hx y hy hkey) hnumber)

/-- Keys that are still told apart are numbered as before. -/
theorem Numbered.of_injOn [DecidableEq K'] (h : Numbered key number xs)
    (hread : Set.InjOn read (keysOf key xs)) : Numbered (fun x ↦ read (key x)) number xs := by
  have hsame : ∀ x ∈ xs, (xs.filter fun y ↦ read (key y) = read (key x)) =
      xs.filter fun y ↦ key y = key x := by
    refine fun x hx ↦ List.filter_congr fun y hy ↦ ?_
    rw [decide_eq_decide]
    exact ⟨injOn_keysOf_iff.mp hread y hy x hx, congrArg read⟩
  intro k
  by_cases hk : ∃ x ∈ xs, read (key x) = k
  · obtain ⟨x, hx, rfl⟩ := hk
    rw [numbers, count, List.countP_eq_length_filter, hsame x hx, ← List.countP_eq_length_filter]
    exact h (key x)
  · have hzero : count (fun x ↦ read (key x)) k xs = 0 :=
      List.countP_eq_zero.mpr fun x hx ↦ by simpa using fun hkey ↦ hk ⟨x, hx, hkey⟩
    rw [hzero]
    exact List.length_eq_zero_iff.mp ((length_numbers number k xs).trans hzero)

/-- Two numbered logs have a key and a number in common exactly when they have a key in common:
both have its first element. -/
theorem Numbered.disjoint_read_iff (hx : Numbered key number xs) (hy : Numbered key number ys)
    (read read' : K → K') : List.Disjoint (xs.map fun x ↦ (read (key x), number x))
        (ys.map fun y ↦ (read' (key y), number y)) ↔
      ∀ k, ¬ ((∃ x ∈ xs, read (key x) = k) ∧ ∃ y ∈ ys, read' (key y) = k) := by
  constructor
  · rintro hdisjoint _ ⟨⟨x, hxmem, rfl⟩, y, hymem, heq⟩
    obtain ⟨f, hf, hfx, hone⟩ := hx.exists_one hxmem
    obtain ⟨g, hg, hgy, hone'⟩ := hy.exists_one hymem
    refine hdisjoint (List.mem_map.mpr ⟨f, hf, rfl⟩) (List.mem_map.mpr ⟨g, hg, Prod.ext ?_ ?_⟩)
    · rw [hfx, hgy, heq]
    · exact hone'.trans hone.symm
  · intro h _ hxmap hymap
    obtain ⟨x, hxmem, rfl⟩ := List.mem_map.mp hxmap
    obtain ⟨y, hymem, heq⟩ := List.mem_map.mp hymap
    exact h (read (key x)) ⟨⟨x, hxmem, rfl⟩, y, hymem, congrArg Prod.fst heq⟩

end Read

/-! ## Logs together -/

/-- Numbered logs without a common key are numbered together. -/
theorem Numbered.append {xs ys : List α} (hx : Numbered key number xs)
    (hy : Numbered key number ys) (h : ∀ x ∈ xs, ∀ y ∈ ys, key x ≠ key y) :
    Numbered key number (xs ++ ys) := by
  have habsent : ∀ {zs : List α} {k : K}, (∀ z ∈ zs, key z ≠ k) →
      numbers key number k zs = [] ∧ count key k zs = 0 := by
    intro zs k hzs
    have hcount : count key k zs = 0 := List.countP_eq_zero.mpr fun z hz ↦ by simpa using hzs z hz
    refine ⟨?_, hcount⟩
    rw [← List.length_eq_zero_iff, length_numbers, hcount]
  intro k
  rw [numbers_append, count_append]
  by_cases hk : ∃ x ∈ xs, key x = k
  · obtain ⟨x, hx', rfl⟩ := hk
    obtain ⟨hnone, hzero⟩ := habsent fun y hy' ↦ (h x hx' y hy').symm
    rw [hnone, hzero, List.append_nil, Nat.add_zero]
    exact hx _
  · obtain ⟨hnone, hzero⟩ := habsent fun x hx' hkey ↦ hk ⟨x, hx', hkey⟩
    rw [hnone, hzero, List.nil_append, Nat.zero_add]
    exact hy k

theorem numbered_flatMap {β : Type*} {l : List β} {f : β → List α}
    (h : ∀ b ∈ l, Numbered key number (f b))
    (hapart : l.Pairwise fun b c ↦ ∀ x ∈ f b, ∀ y ∈ f c, key x ≠ key y) :
    Numbered key number (l.flatMap f) := by
  induction l with
  | nil => exact .nil
  | cons b rest ih =>
    obtain ⟨hb, hrest⟩ := List.pairwise_cons.mp hapart
    rw [List.flatMap_cons]
    refine (h b List.mem_cons_self).append
      (ih (fun c hc ↦ h c (List.mem_cons_of_mem _ hc)) hrest) fun x hx y hy ↦ ?_
    obtain ⟨c, hc, hy⟩ := List.mem_flatMap.mp hy
    exact hb c hc x hx y hy

end Numbering
