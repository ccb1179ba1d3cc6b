import PostTrade.Ingest.Publication
import PostTrade.Reconcile.SequenceGaps

/-!
# Numbers across restarts

The counters of an ingestor live in its memory, so a process that takes over numbers every symbol
from one again.  The gap scan sees numbers only.  A lost tick whose number another process has used
too leaves no gap behind, and neither does one whose number lies above all those that were kept.

`losses_detected_iff` says for which losses the scan tells what it should, and then for which
histories it does so whatever is lost: those in which only one process published ticks of a symbol,
or at most two ticks of it were published in all.
-/

set_option autoImplicit false

namespace PostTrade

open Python Numbering

/-! ## Processes -/

/-- A process that runs an ingestor, and all that happens to it. -/
structure IngestorProcess where
  symbols : List Str
  onRawMessage : Bool
  maxReconnects : Option ℕ
  script : List Connection

/-- The ingestor as the process leaves it. -/
def IngestorProcess.final (p : IngestorProcess) (stream : TickStream) : AsyncIngestor :=
  ((AsyncIngestor.init p.symbols p.onRawMessage stream).run p.maxReconnects p.script).2

/-- The ticks that each of the processes publishes, one process after the other on one stream. -/
def publishedBy : TickStream → List IngestorProcess → List (List Tick)
  | _, [] => []
  | stream, p :: rest =>
    published (p.final stream).log :: publishedBy (p.final stream).stream rest

/-- Every process numbers its ticks from one on. -/
theorem numbered_of_mem_publishedBy {stream : TickStream} {history : List IngestorProcess}
    {ticks : List Tick} (h : ticks ∈ publishedBy stream history) :
    Numbered Tick.symbol Tick.sequence ticks := by
  induction history generalizing stream with
  | nil => cases h
  | cons p rest ih =>
    rcases List.mem_cons.mp h with rfl | h
    · exact ((AsyncIngestor.kept_inStep stream.entries).run
        (AsyncIngestor.inStep_init _ _ _) _ _).numbered
    · exact ih h

/-! ## Losses -/

/-- A published tick, and whether it reaches the tick store. -/
abbrev Fate := Tick × Bool

/-- The store holds rows of the ticks that reach it and no others, in any order and any number, no
matter which worker wrote them. -/
structure Survived (fates : List Fate) (store : TickStore) : Prop where
  sound : ∀ row ∈ store, ∃ tick worker, (tick, true) ∈ fates ∧ row = TickRow.ofTick tick worker
  complete : ∀ tick, (tick, true) ∈ fates → ∃ worker, TickRow.ofTick tick worker ∈ store

/-- A tick of the symbol with the number reaches the store. -/
def KeptNumber (fates : List Fate) (symbol : Str) (n : ℤ) : Prop :=
  ∃ tick, (tick, true) ∈ fates ∧ tick.symbol = symbol ∧ tick.sequence = n

/-- The tick is lost, and ticks of its symbol published before and after it reach the store. -/
def LostBetween (fates : List Fate) (tick : Tick) : Prop :=
  ∃ before after, fates = before ++ (tick, false) :: after ∧
    (∃ u, (u, true) ∈ before ∧ u.symbol = tick.symbol) ∧
    ∃ v, (v, true) ∈ after ∧ v.symbol = tick.symbol

/-- The gap scan over all stored ticks of a tick's symbol declares its number missing. -/
def Detected (store : TickStore) (tick : Tick) : Prop :=
  DeclaredMissing (Reconciler.findSequenceGaps tick.symbol
    (store.filter fun row ↦ row.symbol = tick.symbol)) tick.sequence

/-- Every tick lost between two that were kept is detected. -/
def LossesDetected (fates : List Fate) (store : TickStore) : Prop :=
  ∀ tick, LostBetween fates tick → Detected store tick

/-- What the scan can tell of a tick, in terms of the ticks that were kept. -/
theorem detected_iff {fates : List Fate} {store : TickStore} (h : Survived fates store)
    (tick : Tick) :
    Detected store tick ↔ Gaps.Between (KeptNumber fates tick.symbol) tick.sequence := by
  rw [Detected, Reconciler.declares_findSequenceGaps_iff]
  refine Gaps.Between.congr (fun n ↦ ?_) _
  constructor
  · rintro ⟨row, hrow, hn⟩
    obtain ⟨hmem, hsymbol⟩ := List.mem_filter.mp hrow
    obtain ⟨u, worker, hu, rfl⟩ := h.sound row hmem
    exact ⟨u, hu, of_decide_eq_true hsymbol, hn⟩
  · rintro ⟨u, hu, hsymbol, hn⟩
    obtain ⟨worker, hrow⟩ := h.complete u hu
    exact ⟨_, List.mem_filter.mpr ⟨hrow, decide_eq_true hsymbol⟩, hn⟩

/-- A store of what was kept. -/
def storeOf (fates : List Fate) : TickStore :=
  (fates.filter Prod.snd).map fun fate ↦ TickRow.ofTick fate.1 none

theorem survived_storeOf (fates : List Fate) : Survived fates (storeOf fates) where
  sound row hrow := by
    obtain ⟨⟨tick, kept⟩, hmem, rfl⟩ := List.mem_map.mp hrow
    obtain ⟨hmem, hkept⟩ := List.mem_filter.mp hmem
    cases hkept
    exact ⟨tick, none, hmem, rfl⟩
  complete tick htick :=
    ⟨none, List.mem_map.mpr ⟨_, List.mem_filter.mpr ⟨htick, rfl⟩, rfl⟩⟩

/-! ## The place of a tick in its process -/

/-- The tick is the `k`-th of its symbol that its process published. -/
def IsNth (processes : List (List Tick)) (tick : Tick) (k : ℕ) : Prop :=
  ∃ ticks ∈ processes, ∃ before after, ticks = before ++ tick :: after ∧
    k = count Tick.symbol tick.symbol before + 1

theorem exists_isNth {processes : List (List Tick)} {tick : Tick} (h : tick ∈ processes.flatten) :
    ∃ k, IsNth processes tick k := by
  obtain ⟨ticks, hticks, hmem⟩ := List.mem_flatten.mp h
  obtain ⟨before, after, heq⟩ := List.append_of_mem hmem
  exact ⟨_, ticks, hticks, before, after, heq, rfl⟩

/-- The number of a tick is its place in its process. -/
theorem IsNth.sequence_eq {processes : List (List Tick)}
    (hnumbered : ∀ ticks ∈ processes, Numbered Tick.symbol Tick.sequence ticks) {tick : Tick}
    {k : ℕ} (h : IsNth processes tick k) : tick.sequence = k := by
  obtain ⟨ticks, hticks, before, after, heq, rfl⟩ := h
  have hsequence := (heq ▸ hnumbered ticks hticks).number_eq
  exact_mod_cast hsequence

/-- A tick of the symbol that was the `k`-th of its process reaches the store. -/
def KeptNth (processes : List (List Tick)) (fates : List Fate) (symbol : Str) (k : ℕ) : Prop :=
  ∃ tick, (tick, true) ∈ fates ∧ tick.symbol = symbol ∧ IsNth processes tick k

theorem kept_iff {processes : List (List Tick)} {fates : List Fate}
    (hnumbered : ∀ ticks ∈ processes, Numbered Tick.symbol Tick.sequence ticks)
    (hfates : fates.map Prod.fst = processes.flatten) {symbol : Str} {n : ℤ} :
    KeptNumber fates symbol n ↔ ∃ k : ℕ, n = k ∧ KeptNth processes fates symbol k := by
  constructor
  · rintro ⟨tick, hmem, hsymbol, rfl⟩
    obtain ⟨k, hk⟩ := exists_isNth (hfates ▸ List.mem_map_of_mem hmem)
    exact ⟨k, hk.sequence_eq hnumbered, tick, hmem, hsymbol, hk⟩
  · rintro ⟨k, rfl, tick, hmem, hsymbol, hk⟩
    exact ⟨tick, hmem, hsymbol, hk.sequence_eq hnumbered⟩

/-- The places of the kept ticks give away every tick lost between two others: none of them has its
place, while some have a smaller and some a larger one. -/
def PlacesTell (processes : List (List Tick)) (fates : List Fate) : Prop :=
  ∀ tick k, LostBetween fates tick → IsNth processes tick k →
    ¬ KeptNth processes fates tick.symbol k ∧
      (∃ j < k, KeptNth processes fates tick.symbol j) ∧
      ∃ j > k, KeptNth processes fates tick.symbol j

theorem LostBetween.mem {fates : List Fate} {tick : Tick} (h : LostBetween fates tick) :
    tick ∈ fates.map Prod.fst := by
  obtain ⟨before, after, rfl, -⟩ := h
  rw [List.map_append, List.map_cons]
  exact List.mem_append_right _ List.mem_cons_self

theorem lossesDetected_iff {processes : List (List Tick)} {fates : List Fate} {store : TickStore}
    (hnumbered : ∀ ticks ∈ processes, Numbered Tick.symbol Tick.sequence ticks)
    (hfates : fates.map Prod.fst = processes.flatten) (hstore : Survived fates store) :
    LossesDetected fates store ↔ PlacesTell processes fates := by
  have hdetected : ∀ tick k, IsNth processes tick k → (Detected store tick ↔
      ¬ KeptNth processes fates tick.symbol k ∧
        (∃ j < k, KeptNth processes fates tick.symbol j) ∧
        ∃ j > k, KeptNth processes fates tick.symbol j) := by
    intro tick k hk
    rw [detected_iff hstore, Gaps.Between, hk.sequence_eq hnumbered]
    simp only [kept_iff hnumbered hfates]
    constructor
    · rintro ⟨hnot, ⟨_, ⟨i, rfl, hi⟩, hik⟩, _, ⟨j, rfl, hj⟩, hkj⟩
      exact ⟨fun h ↦ hnot ⟨k, rfl, h⟩, ⟨i, by exact_mod_cast hik, hi⟩, j, by exact_mod_cast hkj, hj⟩
    · rintro ⟨hnot, ⟨i, hik, hi⟩, j, hkj, hj⟩
      refine ⟨?_, ⟨i, ⟨i, rfl, hi⟩, by exact_mod_cast hik⟩, j, ⟨j, rfl, hj⟩, by exact_mod_cast hkj⟩
      rintro ⟨i, hki, hi⟩
      rw [Nat.cast_inj] at hki
      exact hnot (hki ▸ hi)
  constructor
  · intro h tick k hlost hk
    exact (hdetected tick k hk).mp (h tick hlost)
  · intro h tick hlost
    obtain ⟨k, hk⟩ := exists_isNth (hfates ▸ hlost.mem)
    exact (hdetected tick k hk).mpr (h tick k hlost hk)

/-! ## Histories without undetected losses -/

/-- At most one of the processes published ticks of the symbol. -/
def OneProcess (processes : List (List Tick)) (symbol : Str) : Prop :=
  processes.Pairwise fun xs ys ↦
    ¬ ((∃ tick ∈ xs, tick.symbol = symbol) ∧ ∃ tick ∈ ys, tick.symbol = symbol)

/-- Where one process published the ticks of a symbol, their numbers increase over the history. -/
theorem OneProcess.numbers_flatten {processes : List (List Tick)} {symbol : Str}
    (h : OneProcess processes symbol)
    (hnumbered : ∀ ticks ∈ processes, Numbered Tick.symbol Tick.sequence ticks) :
    (numbers Tick.symbol Tick.sequence symbol processes.flatten).Pairwise (· < ·) := by
  induction processes with
  | nil => exact List.Pairwise.nil
  | cons ticks rest ih =>
    rw [OneProcess, List.pairwise_cons] at h
    obtain ⟨hticks, hrest⟩ := h
    have ih := ih hrest fun ticks h ↦ hnumbered ticks (List.mem_cons_of_mem _ h)
    rw [List.flatten_cons, numbers_append]
    by_cases hpublished : ∃ tick ∈ ticks, tick.symbol = symbol
    · have hnil : numbers Tick.symbol Tick.sequence symbol rest.flatten = [] := by
        rw [List.eq_nil_iff_forall_not_mem]
        intro n hn
        obtain ⟨tick, hmem, hsymbol, -⟩ := mem_numbers.mp hn
        obtain ⟨ys, hys, htick⟩ := List.mem_flatten.mp hmem
        exact hticks ys hys ⟨hpublished, tick, htick, hsymbol⟩
      rw [hnil, List.append_nil, hnumbered ticks List.mem_cons_self]
      exact pairwise_oneTo _
    · have hnil : numbers Tick.symbol Tick.sequence symbol ticks = [] := by
        rw [List.eq_nil_iff_forall_not_mem]
        intro n hn
        obtain ⟨tick, hmem, hsymbol, -⟩ := mem_numbers.mp hn
        exact hpublished ⟨tick, hmem, hsymbol⟩
      rwa [hnil, List.nil_append]

/-- Where the numbers of its symbol increase over the history, a lost tick is detected. -/
theorem detected_of_pairwise {fates : List Fate} {store : TickStore} (hstore : Survived fates store)
    {tick : Tick} (hlost : LostBetween fates tick)
    (hincreasing : (numbers Tick.symbol Tick.sequence tick.symbol
      (fates.map Prod.fst)).Pairwise (· < ·)) : Detected store tick := by
  obtain ⟨before, after, rfl, ⟨u, hu, husymbol⟩, v, hv, hvsymbol⟩ := hlost
  rw [List.map_append, List.map_cons] at hincreasing
  obtain ⟨hbefore, hafter⟩ := lt_of_pairwise hincreasing
  rw [detected_iff hstore]
  refine ⟨?_, ⟨_, ⟨u, by simp [hu], husymbol, rfl⟩, ?_⟩, _, ⟨v, by simp [hv], hvsymbol, rfl⟩, ?_⟩
  · rintro ⟨w, hw, hwsymbol, heq⟩
    -- a kept tick with this number would stand before, at or after the lost one
    rcases List.mem_append.mp hw with hw | hw
    · exact (hbefore w (List.mem_map_of_mem (f := Prod.fst) hw) hwsymbol).ne heq
    · rcases List.mem_cons.mp hw with hw | hw
      · cases hw
      · exact (hafter w (List.mem_map_of_mem (f := Prod.fst) hw) hwsymbol).ne' heq
  · exact hbefore u (List.mem_map_of_mem (f := Prod.fst) hu) husymbol
  · exact hafter v (List.mem_map_of_mem (f := Prod.fst) hv) hvsymbol

/-- A tick lost between two others is one of at least three. -/
theorem LostBetween.two_lt_count {fates : List Fate} {tick : Tick} (h : LostBetween fates tick) :
    2 < count Tick.symbol tick.symbol (fates.map Prod.fst) := by
  obtain ⟨before, after, rfl, ⟨u, hu, husymbol⟩, v, hv, hvsymbol⟩ := h
  have hbefore : 0 < count Tick.symbol tick.symbol (before.map Prod.fst) :=
    count_pos_iff.mpr ⟨u, List.mem_map_of_mem (f := Prod.fst) hu, husymbol⟩
  have hafter : 0 < count Tick.symbol tick.symbol (after.map Prod.fst) :=
    count_pos_iff.mpr ⟨v, List.mem_map_of_mem (f := Prod.fst) hv, hvsymbol⟩
  rw [List.map_append, List.map_cons, ← List.singleton_append, count_append, count_append,
    count_singleton, if_pos rfl]
  omega

/-- The first tick of a symbol in a history has number one. -/
theorem exists_first_flatten {processes : List (List Tick)} {symbol : Str}
    (hnumbered : ∀ ticks ∈ processes, Numbered Tick.symbol Tick.sequence ticks)
    (h : 0 < count Tick.symbol symbol processes.flatten) :
    ∃ before tick after, processes.flatten = before ++ tick :: after ∧ tick.symbol = symbol ∧
      count Tick.symbol symbol before = 0 ∧ tick.sequence = 1 := by
  induction processes with
  | nil => simp at h
  | cons ticks rest ih =>
    rw [List.flatten_cons, count_append] at h
    rw [List.flatten_cons]
    by_cases hticks : 0 < count Tick.symbol symbol ticks
    · obtain ⟨before, tick, after, rfl, rfl, hbefore⟩ := exists_first hticks
      refine ⟨before, tick, after ++ rest.flatten, by simp, rfl, hbefore, ?_⟩
      rw [(hnumbered _ List.mem_cons_self).number_eq, hbefore]
      rfl
    · obtain ⟨before, tick, after, heq, hsymbol, hbefore, hone⟩ :=
        ih (fun ticks h ↦ hnumbered ticks (List.mem_cons_of_mem _ h)) (by omega)
      refine ⟨ticks ++ before, tick, after, by rw [heq, List.append_assoc], hsymbol, ?_, hone⟩
      rw [count_append]
      omega

/-- Where several processes published ticks of the symbol, there is a first one that did. -/
theorem exists_first_process {processes : List (List Tick)} {symbol : Str}
    (h : ¬ OneProcess processes symbol) :
    ∃ earlier ticks later, processes = earlier ++ ticks :: later ∧
      count Tick.symbol symbol earlier.flatten = 0 ∧ 0 < count Tick.symbol symbol ticks ∧
      0 < count Tick.symbol symbol later.flatten := by
  induction processes with
  | nil => exact absurd List.Pairwise.nil h
  | cons ticks rest ih =>
    have hlater : ∀ ys ∈ rest, (∃ tick ∈ ys, tick.symbol = symbol) →
        0 < count Tick.symbol symbol rest.flatten := by
      rintro ys hys ⟨tick, htick, hsymbol⟩
      exact count_pos_iff.mpr ⟨tick, List.mem_flatten.mpr ⟨ys, hys, htick⟩, hsymbol⟩
    by_cases hticks : 0 < count Tick.symbol symbol ticks
    · refine ⟨[], ticks, rest, rfl, rfl, hticks, ?_⟩
      by_contra hnone
      refine h (List.pairwise_cons.mpr ⟨fun ys hys hboth ↦ hnone (hlater ys hys hboth.2), ?_⟩)
      exact List.pairwise_of_forall_mem_list fun xs hxs ys _ hboth ↦ hnone (hlater xs hxs hboth.1)
    · have hrest : ¬ OneProcess rest symbol := by
        intro hrest
        refine h (List.pairwise_cons.mpr ⟨fun ys _ hboth ↦ hticks ?_, hrest⟩)
        exact count_pos_iff.mpr hboth.1
      obtain ⟨earlier, ys, later, rfl, hearlier, hys, hlater⟩ := ih hrest
      refine ⟨ticks :: earlier, ys, later, rfl, ?_, hys, hlater⟩
      rw [List.flatten_cons, count_append]
      omega

/-! ### Losses that nobody notices -/

/-- All of the ticks are kept. -/
def keptAll (ticks : List Tick) : List Fate := ticks.map fun tick ↦ (tick, true)

/-- All of the ticks are lost. -/
def lostAll (ticks : List Tick) : List Fate := ticks.map fun tick ↦ (tick, false)

@[simp] theorem map_fst_keptAll (ticks : List Tick) : (keptAll ticks).map Prod.fst = ticks := by
  simp [keptAll, Function.comp_def]

@[simp] theorem map_fst_lostAll (ticks : List Tick) : (lostAll ticks).map Prod.fst = ticks := by
  simp [lostAll, Function.comp_def]

@[simp] theorem mem_keptAll {tick : Tick} {ticks : List Tick} :
    (tick, true) ∈ keptAll ticks ↔ tick ∈ ticks := by
  simp [keptAll]

@[simp] theorem not_mem_lostAll {tick : Tick} {ticks : List Tick} :
    (tick, true) ∉ lostAll ticks := by
  simp [lostAll]

/-- The first tick of a later process is lost: its number is that of a tick that was kept. -/
theorem not_detected_first (xs ys : List Tick) {a x v : Tick} (ha : a ∈ xs)
    (haone : a.sequence = 1) (hasymbol : a.symbol = x.symbol) (hx : x.sequence = 1) (hv : v ∈ ys)
    (hvsymbol : v.symbol = x.symbol) :
    LostBetween (keptAll xs ++ (x, false) :: keptAll ys) x ∧
      ¬ Detected (storeOf (keptAll xs ++ (x, false) :: keptAll ys)) x := by
  refine ⟨⟨_, _, rfl, ⟨a, mem_keptAll.mpr ha, hasymbol⟩, v, mem_keptAll.mpr hv, hvsymbol⟩, ?_⟩
  rw [detected_iff (survived_storeOf _)]
  rintro ⟨hnot, -⟩
  exact hnot ⟨a, List.mem_append_left _ (mem_keptAll.mpr ha), hasymbol, by rw [haone, hx]⟩

/-- Only two ticks with number one are kept: no number above theirs gives the others away. -/
theorem not_detected_second (p q q' r : List Tick) {a b x : Tick} (haone : a.sequence = 1)
    (hasymbol : a.symbol = b.symbol) (hb : b.sequence = 2) (hxone : x.sequence = 1)
    (hxsymbol : x.symbol = b.symbol) :
    LostBetween (lostAll p ++ (a, true) :: lostAll q ++ (b, false) ::
        (lostAll q' ++ (x, true) :: lostAll r)) b ∧
      ¬ Detected (storeOf (lostAll p ++ (a, true) :: lostAll q ++ (b, false) ::
        (lostAll q' ++ (x, true) :: lostAll r))) b := by
  refine ⟨⟨_, _, rfl, ⟨a, by simp, hasymbol⟩, x, by simp, hxsymbol⟩, ?_⟩
  rw [detected_iff (survived_storeOf _)]
  rintro ⟨-, -, n, ⟨w, hw, -, rfl⟩, hlt⟩
  have hone : w.sequence = 1 := by
    simp only [List.append_assoc, List.cons_append, List.mem_append, List.mem_cons, not_mem_lostAll,
      Prod.mk.injEq, and_true, Bool.true_eq_false, and_false, false_or, or_false] at hw
    rcases hw with rfl | rfl
    · exact haone
    · exact hxone
  omega

/-- Where several processes published ticks of a symbol, three or more of them, a loss among them
can go unnoticed. -/
theorem exists_undetected {processes : List (List Tick)} {symbol : Str}
    (hnumbered : ∀ ticks ∈ processes, Numbered Tick.symbol Tick.sequence ticks)
    (hseveral : ¬ OneProcess processes symbol)
    (hthree : 2 < count Tick.symbol symbol processes.flatten) :
    ∃ fates, fates.map Prod.fst = processes.flatten ∧
      ∃ tick, LostBetween fates tick ∧ ¬ Detected (storeOf fates) tick := by
  obtain ⟨earlier, ticks, later, rfl, hearlier, hticks, hlater⟩ := exists_first_process hseveral
  have hticksNumbered := hnumbered ticks (by simp)
  obtain ⟨r, x, r', hlaterEq, rfl, hr, hxone⟩ := exists_first_flatten
    (fun ticks h ↦ hnumbered ticks (by simp [h])) hlater
  have hflatten : (earlier ++ ticks :: later).flatten
      = earlier.flatten ++ ticks ++ r ++ x :: r' := by
    simp [hlaterEq]
  have hcount : count Tick.symbol x.symbol later.flatten
      = 1 + count Tick.symbol x.symbol r' := by
    rw [hlaterEq, count_append, hr, ← List.singleton_append, count_append, count_singleton,
      if_pos rfl, Nat.zero_add]
  rw [hflatten] at hthree ⊢
  by_cases hr' : 0 < count Tick.symbol x.symbol r'
  · -- another tick follows the first one of the later processes
    obtain ⟨a, ha, hasymbol, haone⟩ := (hticksNumbered.exists_iff (k := x.symbol) (n := 1)).mpr
      ⟨le_rfl, by exact_mod_cast hticks⟩
    obtain ⟨v, hv, hvsymbol⟩ := count_pos_iff.mp hr'
    exact ⟨_, by simp, x, not_detected_first (earlier.flatten ++ ticks ++ r) r' (by simp [ha])
      haone hasymbol hxone hv hvsymbol⟩
  · -- it is the only one, so the first process published two
    obtain ⟨p, a, q, rfl, hasymbol, hp⟩ := exists_first hticks
    have hq : 0 < count Tick.symbol x.symbol q := by
      rw [← List.singleton_append (l := r'), ← List.singleton_append (l := q)] at hthree
      simp only [count_append, count_singleton, hasymbol, hearlier, hp, hr] at hthree
      simp only [if_true] at hthree
      omega
    obtain ⟨q, b, q', rfl, hbsymbol, hq⟩ := exists_first hq
    have haone : a.sequence = 1 := by
      rw [hticksNumbered.number_eq, hasymbol, hp]
      rfl
    have hbtwo : b.sequence = 2 := by
      have hsplit : Numbered Tick.symbol Tick.sequence ((p ++ [a] ++ q) ++ b :: q') := by
        simpa using hticksNumbered
      rw [hsplit.number_eq, hbsymbol, count_append, count_append, count_singleton, if_pos hasymbol,
        hp, hq]
      rfl
    exact ⟨_, by simp, b, not_detected_second (earlier.flatten ++ p) q (q' ++ r) r' haone
      (hasymbol.trans hbsymbol.symm) hbtwo hxone hbsymbol.symm⟩

/-- **When losses are detectable across restarts.**  Whatever becomes of the published ticks and in
whatever order the store holds them, the gap scan detects every tick lost between two that were kept
exactly when the places of the kept ticks in their processes give it away.  And a history leaves no
room for an undetected loss exactly when, for every symbol, only one process published ticks of it
or at most two were published in all. -/
theorem losses_detected_iff (stream : TickStream) (history : List IngestorProcess) :
    (∀ fates store, fates.map Prod.fst = (publishedBy stream history).flatten →
      Survived fates store →
        (LossesDetected fates store ↔ PlacesTell (publishedBy stream history) fates)) ∧
    ((∀ fates store, fates.map Prod.fst = (publishedBy stream history).flatten →
      Survived fates store → LossesDetected fates store) ↔
        ∀ symbol, OneProcess (publishedBy stream history) symbol ∨
          count Tick.symbol symbol (publishedBy stream history).flatten ≤ 2) := by
  have hnumbered : ∀ ticks ∈ publishedBy stream history, Numbered Tick.symbol Tick.sequence ticks :=
    fun ticks h ↦ numbered_of_mem_publishedBy h
  refine ⟨fun fates store hfates hstore ↦ lossesDetected_iff hnumbered hfates hstore, ?_⟩
  constructor
  · intro h symbol
    by_contra hnot
    obtain ⟨hseveral, hthree⟩ := not_or.mp hnot
    obtain ⟨fates, hfates, tick, hlost, hundetected⟩ :=
      exists_undetected hnumbered hseveral (by omega)
    exact hundetected (h fates _ hfates (survived_storeOf fates) tick hlost)
  · intro h fates store hfates hstore tick hlost
    rcases h tick.symbol with hone | htwo
    · refine detected_of_pairwise hstore hlost ?_
      rw [hfates]
      exact hone.numbers_flatten hnumbered
    · have := hlost.two_lt_count
      rw [hfates] at this
      omega

/-! ### One restart -/

/-- A trade of the symbol, as the exchange sends it. -/
def btcMatch (now : Time) : Arrival where
  raw := .text
    "\x7b\"type\":\"match\",\"product_id\":\"BTC-USD\",\"price\":\"100\"\x7d".toList
  exchangeNow := now
  ingestNow := now

/-- A process that receives a trade at each of the times, on one connection. -/
def btcProcess (times : List Time) : IngestorProcess where
  symbols := ["BTC-USD".toList]
  onRawMessage := false
  maxReconnects := none
  script := [.opened (times.map btcMatch) none]

/-- One process publishes a tick, the next one two; the first of these two is lost. -/
def restartFates : List Fate :=
  [(btcTick 1 0, true), (btcTick 1 10, false), (btcTick 2 20, true)]

/-- The lost tick stands between two kept ones, and no gap is reported at all. -/
theorem restart_hides_loss :
    restartFates.map Prod.fst = (publishedBy {} [btcProcess [0], btcProcess [10, 20]]).flatten ∧
      Survived restartFates (storeOf restartFates) ∧
      LostBetween restartFates (btcTick 1 10) ∧
      Reconciler.findSequenceGaps "BTC-USD".toList (storeOf restartFates) = [] ∧
      ¬ LossesDetected restartFates (storeOf restartFates) := by
  have hlost : LostBetween restartFates (btcTick 1 10) :=
    ⟨[(btcTick 1 0, true)], [(btcTick 2 20, true)], rfl, ⟨_, List.mem_cons_self, rfl⟩,
      _, List.mem_cons_self, rfl⟩
  refine ⟨by decide +kernel, survived_storeOf _, hlost, by decide +kernel, fun h ↦ ?_⟩
  obtain ⟨hnot, -⟩ := (detected_iff (survived_storeOf _) _).mp (h _ hlost)
  exact hnot ⟨btcTick 1 0, List.mem_cons_self, rfl, rfl⟩

end PostTrade
