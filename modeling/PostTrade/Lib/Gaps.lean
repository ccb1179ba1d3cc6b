import Mathlib

/-!
# Gaps in a set of integers

A scan for missing numbers sorts the numbers it has and compares neighbours.  `pairwise` is the
neighbour pairs of a list, and `gaps` the ones that are more than one apart.  The main result,
`exists_pairwise_iff`, says what such a scan finds in a sorted list, whether or not a number is in
it more than once: exactly the integers that are not in the list although the list goes both below
and above them.

The right-hand side, `Between`, only speaks of the *set* of numbers.  Of that set, the gaps are
the maximal runs of consecutive integers, each given once and in increasing order
(`listsRuns_gaps`).

How many gaps there are is bounded by how many intervals the missing numbers come from
(`length_gaps_le`): intervals may touch and merge, but an interval lies in one gap.
-/

set_option autoImplicit false

namespace Gaps

/-- `itertools.pairwise`. -/
def pairwise {α : Type*} : List α → List (α × α)
  | [] => []
  | [_] => []
  | a :: b :: rest => (a, b) :: pairwise (b :: rest)

theorem mem_of_mem_pairwise {α : Type*} {l : List α} {a b : α} (h : (a, b) ∈ pairwise l) :
    a ∈ l ∧ b ∈ l := by
  induction l using pairwise.induct with
  | case1 => simp [pairwise] at h
  | case2 => simp [pairwise] at h
  | case3 x y rest ih =>
    rw [pairwise, List.mem_cons] at h
    rcases h with h | h
    · cases h
      simp
    · exact ⟨List.mem_cons_of_mem _ (ih h).1, List.mem_cons_of_mem _ (ih h).2⟩

/-- The head of a sorted list is its least number. -/
theorem le_of_mem_cons {b : ℤ} {rest : List ℤ} (h : (b :: rest).Pairwise (· ≤ ·)) :
    ∀ x ∈ b :: rest, b ≤ x := by
  intro x hx
  rcases List.mem_cons.mp hx with rfl | hx
  · exact le_rfl
  · exact (List.pairwise_cons.mp h).1 x hx

/-- `m` is not among the numbers `S`, but `S` has numbers on both sides of it. -/
def Between (S : ℤ → Prop) (m : ℤ) : Prop := ¬ S m ∧ (∃ a, S a ∧ a < m) ∧ ∃ b, S b ∧ m < b

theorem Between.congr {S T : ℤ → Prop} (h : ∀ x, S x ↔ T x) (m : ℤ) :
    Between S m ↔ Between T m := by
  simp only [Between, h]

/-- Numbers that surround nothing else are an interval. -/
theorem ordConnected_iff {S : ℤ → Prop} : {x | S x}.OrdConnected ↔ ∀ m, ¬ Between S m := by
  constructor
  · rintro hS m ⟨hm, ⟨a, ha, ham⟩, b, hb, hmb⟩
    exact hm (hS.out ha hb ⟨ham.le, hmb.le⟩)
  · refine fun h ↦ ⟨fun a ha b hb m hm ↦ ?_⟩
    by_contra hmiss
    refine h m ⟨hmiss, ⟨a, ha, lt_of_le_of_ne hm.1 ?_⟩, b, hb, lt_of_le_of_ne hm.2 ?_⟩
    · rintro rfl
      exact hmiss ha
    · rintro rfl
      exact hmiss hb

/-- **What a scan of neighbours finds**: an integer lies strictly between two neighbours of a
sorted list exactly when it is missing from the list and the list surrounds it. -/
theorem exists_pairwise_iff {l : List ℤ} (hl : l.Pairwise (· ≤ ·)) (m : ℤ) :
    (∃ p ∈ pairwise l, p.1 < m ∧ m < p.2) ↔ Between (· ∈ l) m := by
  induction l using pairwise.induct with
  | case1 => simp [pairwise, Between]
  | case2 a =>
    simp only [pairwise, List.not_mem_nil, false_and, exists_false, Between, List.mem_singleton,
      exists_eq_left, false_iff, not_and, not_lt]
    omega
  | case3 a b rest ih =>
    rw [List.pairwise_cons] at hl
    have hab : a ≤ b := hl.1 b (by simp)
    have hb := le_of_mem_cons hl.2
    have hsplit : (∃ p ∈ pairwise (a :: b :: rest), p.1 < m ∧ m < p.2) ↔
        (a < m ∧ m < b) ∨ ∃ p ∈ pairwise (b :: rest), p.1 < m ∧ m < p.2 := by
      simp [pairwise]
    rw [hsplit, ih hl.2]
    constructor
    · rintro (⟨ham, hmb⟩ | ⟨hm, ⟨c, hc, hcm⟩, d, hd, hmd⟩)
      · refine ⟨fun hm ↦ ?_, ⟨a, by simp, ham⟩, b, by simp, hmb⟩
        rcases List.mem_cons.mp hm with rfl | hm
        · omega
        · have := hb m hm
          omega
      · refine ⟨fun h ↦ ?_, ⟨c, List.mem_cons_of_mem _ hc, hcm⟩, d, List.mem_cons_of_mem _ hd, hmd⟩
        rcases List.mem_cons.mp h with rfl | h
        · have := hb c hc
          omega
        · exact hm h
    · rintro ⟨hm, ⟨c, hc, hcm⟩, d, hd, hmd⟩
      rcases lt_trichotomy m b with hmb | rfl | hbm
      · -- `m` is below `b`, so what lies below it can only be `a`
        left
        rcases List.mem_cons.mp hc with rfl | hc
        · exact ⟨hcm, hmb⟩
        · have := hb c hc
          omega
      · exact absurd (by simp) hm
      · right
        refine ⟨fun h ↦ hm (List.mem_cons_of_mem _ h), ⟨b, by simp, hbm⟩, d, ?_, hmd⟩
        exact (List.mem_cons.mp hd).resolve_left (by omega)

/-! ## Gaps and the runs they leave out -/

/-- The neighbours that are more than one apart. -/
def gaps (l : List ℤ) : List (ℤ × ℤ) := (pairwise l).filter fun p ↦ p.2 - p.1 > 1

theorem mem_gaps {l : List ℤ} {p : ℤ × ℤ} : p ∈ gaps l ↔ p ∈ pairwise l ∧ p.2 - p.1 > 1 := by
  rw [gaps, List.mem_filter, decide_eq_true_eq]

/-- There are no gaps where nothing is missing. -/
theorem gaps_eq_nil_iff {l : List ℤ} (hl : l.Pairwise (· ≤ ·)) :
    gaps l = [] ↔ ∀ m, ¬ Between (· ∈ l) m := by
  rw [List.eq_nil_iff_forall_not_mem]
  constructor
  · intro h m hm
    obtain ⟨p, hp, hpm, hmp⟩ := (exists_pairwise_iff hl m).mpr hm
    exact h p (mem_gaps.mpr ⟨hp, by omega⟩)
  · intro h p hp
    obtain ⟨hpair, hgap⟩ := mem_gaps.mp hp
    exact h (p.1 + 1) ((exists_pairwise_iff hl _).mp ⟨p, hpair, by omega, by omega⟩)

/-- A gap ends where the next one starts, or before. -/
theorem pairwise_gaps {l : List ℤ} (hl : l.Pairwise (· ≤ ·)) :
    (gaps l).Pairwise fun p q ↦ p.2 ≤ q.1 := by
  refine List.Pairwise.filter _ ?_
  induction l using pairwise.induct with
  | case1 => exact List.Pairwise.nil
  | case2 => exact List.Pairwise.nil
  | case3 a b rest ih =>
    have hrest := (List.pairwise_cons.mp hl).2
    rw [pairwise, List.pairwise_cons]
    exact ⟨fun q hq ↦ le_of_mem_cons hrest _ (mem_of_mem_pairwise hq).1, ih hrest⟩

/-- The `count` integers from `first` on are in `S`, and neither neighbour of this run is. -/
structure MaximalRun (S : ℤ → Prop) (first count : ℤ) : Prop where
  pos : 0 < count
  all : ∀ m, first ≤ m → m < first + count → S m
  before : ¬ S (first - 1)
  after : ¬ S (first + count)

/-- `runs` lists the maximal runs of `S`, given by their first number and their length, in
increasing order; consecutive runs do not touch, and there is nothing in `S` beside them. -/
structure ListsRuns (S : ℤ → Prop) (runs : List (ℤ × ℤ)) : Prop where
  mem_iff : ∀ r, r ∈ runs ↔ MaximalRun S r.1 r.2
  apart : runs.Pairwise fun r s ↦ r.1 + r.2 < s.1
  union : ∀ m, S m ↔ ∃ r ∈ runs, r.1 ≤ m ∧ m < r.1 + r.2

theorem MaximalRun.congr {S T : ℤ → Prop} (h : ∀ x, S x ↔ T x) {first count : ℤ}
    (hS : MaximalRun S first count) : MaximalRun T first count :=
  ⟨hS.pos, fun m h₁ h₂ ↦ (h m).mp (hS.all m h₁ h₂), mt (h _).mpr hS.before,
    mt (h _).mpr hS.after⟩

theorem ListsRuns.congr {S T : ℤ → Prop} (h : ∀ x, S x ↔ T x) {runs : List (ℤ × ℤ)}
    (hS : ListsRuns S runs) : ListsRuns T runs where
  mem_iff r := (hS.mem_iff r).trans ⟨.congr h, .congr fun x ↦ (h x).symm⟩
  apart := hS.apart
  union m := (h m).symm.trans (hS.union m)

/-- The run a gap leaves out. -/
def runOf (p : ℤ × ℤ) : ℤ × ℤ := (p.1 + 1, p.2 - p.1 - 1)

theorem maximalRun_runOf {l : List ℤ} (hl : l.Pairwise (· ≤ ·)) {p : ℤ × ℤ} (hp : p ∈ gaps l) :
    MaximalRun (Between (· ∈ l)) (runOf p).1 (runOf p).2 := by
  obtain ⟨hmem, hgap⟩ := mem_gaps.mp hp
  obtain ⟨hfst, hsnd⟩ := mem_of_mem_pairwise hmem
  simp only [runOf]
  refine ⟨by omega, fun m hlo hhi ↦ ?_, fun h ↦ h.1 ?_, fun h ↦ h.1 ?_⟩
  · exact (exists_pairwise_iff hl m).mp ⟨p, hmem, by omega, by omega⟩
  · rwa [add_sub_cancel_right]
  · rwa [show p.1 + 1 + (p.2 - p.1 - 1) = p.2 by ring]

/-- A maximal run is what one gap leaves out, because a gap that holds one of its numbers can
neither start before it nor end after it. -/
theorem exists_mem_gaps_of_maximalRun {l : List ℤ} (hl : l.Pairwise (· ≤ ·)) {first count : ℤ}
    (h : MaximalRun (Between (· ∈ l)) first count) :
    ∃ p ∈ gaps l, runOf p = (first, count) := by
  have hpos := h.pos
  obtain ⟨p, hp, hlo, hhi⟩ :=
    (exists_pairwise_iff hl first).mpr (h.all first le_rfl (by omega))
  have hstart : p.1 = first - 1 := by
    by_contra hne
    exact h.before ((exists_pairwise_iff hl _).mp ⟨p, hp, by omega, by omega⟩)
  have hstop : p.2 = first + count := by
    rcases lt_trichotomy p.2 (first + count) with hlt | heq | hgt
    · -- the end of the gap would be one of the missing numbers
      exact absurd (mem_of_mem_pairwise hp).2 (h.all p.2 hhi.le hlt).1
    · exact heq
    · exact absurd ((exists_pairwise_iff hl _).mp ⟨p, hp, by omega, hgt⟩) h.after
  refine ⟨p, mem_gaps.mpr ⟨hp, by omega⟩, Prod.ext ?_ ?_⟩
  · show p.1 + 1 = first
    omega
  · show p.2 - p.1 - 1 = count
    omega

/-- **Gaps are the maximal runs of missing numbers.** -/
theorem listsRuns_gaps {l : List ℤ} (hl : l.Pairwise (· ≤ ·)) :
    ListsRuns (Between (· ∈ l)) ((gaps l).map runOf) where
  mem_iff r := by
    rw [List.mem_map]
    constructor
    · rintro ⟨p, hp, rfl⟩
      exact maximalRun_runOf hl hp
    · exact exists_mem_gaps_of_maximalRun hl
  apart := by
    refine List.pairwise_map.mpr ((pairwise_gaps hl).imp fun {p q} h ↦ ?_)
    simp only [runOf]
    omega
  union m := by
    rw [← exists_pairwise_iff hl]
    constructor
    · rintro ⟨p, hp, hlo, hhi⟩
      have hgap : p ∈ gaps l := mem_gaps.mpr ⟨hp, by omega⟩
      refine ⟨runOf p, List.mem_map_of_mem hgap, ?_, ?_⟩
      · show p.1 + 1 ≤ m
        omega
      · show m < p.1 + 1 + (p.2 - p.1 - 1)
        omega
    · rintro ⟨r, hr, hlo, hhi⟩
      obtain ⟨p, hp, rfl⟩ := List.mem_map.mp hr
      simp only [runOf] at hlo hhi
      exact ⟨p, (mem_gaps.mp hp).1, by omega, by omega⟩

/-! ## How many gaps there are -/

/-- **There are no more gaps than intervals they come from.**  Where every number missing between
two neighbours is in one of the intervals, and no number of the list is, every gap has an interval
of its own. -/
theorem length_gaps_le {l : List ℤ} (hl : l.Pairwise (· ≤ ·)) {blocks : List (List ℤ)}
    (hblocks : ∀ block ∈ blocks, {x | x ∈ block}.OrdConnected)
    (hapart : ∀ block ∈ blocks, ∀ x ∈ block, x ∉ l)
    (hcover : ∀ p ∈ pairwise l, ∀ m, p.1 < m → m < p.2 → ∃ block ∈ blocks, m ∈ block) :
    (gaps l).length ≤ blocks.length := by
  induction l using pairwise.induct generalizing blocks with
  | case1 => exact Nat.zero_le _
  | case2 => exact Nat.zero_le _
  | case3 a b rest ih =>
    have hrest := (List.pairwise_cons.mp hl).2
    have hb := le_of_mem_cons hrest
    have hcover' : ∀ p ∈ pairwise (b :: rest), ∀ m, p.1 < m → m < p.2 →
        ∃ block ∈ blocks, m ∈ block :=
      fun p hp ↦ hcover p (List.mem_cons_of_mem _ hp)
    have hapart' : ∀ block ∈ blocks, ∀ x ∈ block, x ∉ b :: rest :=
      fun block hblock x hx hmem ↦ hapart block hblock x hx (List.mem_cons_of_mem _ hmem)
    by_cases hgap : b - a > 1
    · -- the interval of `a + 1` cannot reach beyond `b`, so the other gaps do without it
      obtain ⟨block, hblock, ha⟩ := hcover (a, b) (by simp [pairwise]) (a + 1) (by simp) (by
        show a + 1 < b
        omega)
      have hbelow : ∀ m ∈ block, m < b := by
        intro m hm
        by_contra hle
        have hbetween : b ∈ block := (hblocks block hblock).out ha hm ⟨by omega, by omega⟩
        exact hapart' block hblock b hbetween List.mem_cons_self
      have hless := ih hrest
        (fun block' h ↦ hblocks block' (List.mem_of_mem_erase h))
        (fun block' h ↦ hapart' block' (List.mem_of_mem_erase h))
        (fun p hp m hpm hmp ↦ by
          obtain ⟨block', hblock', hm⟩ := hcover' p hp m hpm hmp
          have hne : block' ≠ block := by
            rintro rfl
            have := hb p.1 (mem_of_mem_pairwise hp).1
            have := hbelow m hm
            omega
          exact ⟨block', (List.mem_erase_of_ne hne).mpr hblock', hm⟩)
      rw [List.length_erase_of_mem hblock] at hless
      have hpos := List.length_pos_of_mem hblock
      rw [gaps, pairwise, List.filter_cons_of_pos (by simpa using hgap), List.length_cons, ← gaps]
      omega
    · rw [gaps, pairwise, List.filter_cons_of_neg (by simpa using hgap), ← gaps]
      exact ih hrest hblocks hapart' hcover'

/-- Consecutive integers. -/
def Consecutive (l : List ℤ) : Prop := l.IsChain fun a b ↦ b = a + 1

instance (l : List ℤ) : Decidable (Consecutive l) :=
  inferInstanceAs (Decidable (l.IsChain fun a b ↦ b = a + 1))

theorem Consecutive.pairwise_lt {l : List ℤ} (h : Consecutive l) : l.Pairwise (· < ·) := by
  refine List.isChain_iff_pairwise.mp (List.IsChain.imp (fun a b hab ↦ ?_) h)
  omega

theorem Consecutive.of_isInfix {l m : List ℤ} (h : Consecutive m) (hl : l <:+: m) :
    Consecutive l := List.IsChain.infix h hl

/-- Consecutive integers leave none out. -/
theorem Consecutive.ordConnected {l : List ℤ} (h : Consecutive l) :
    {x | x ∈ l}.OrdConnected := by
  refine ordConnected_iff.mpr fun m hm ↦ ?_
  obtain ⟨p, hp, hpm, hmp⟩ := (exists_pairwise_iff (h.pairwise_lt.imp le_of_lt) m).mpr hm
  have hnext : ∀ q ∈ pairwise l, q.2 = q.1 + 1 := by
    clear hp hm
    induction l using pairwise.induct with
    | case1 => simp [pairwise]
    | case2 => simp [pairwise]
    | case3 a b rest ih =>
      rw [Consecutive, List.isChain_cons_cons] at h
      intro q hq
      rcases List.mem_cons.mp hq with rfl | hq
      · exact h.1
      · exact ih h.2 q hq
  have := hnext p hp
  omega

end Gaps
