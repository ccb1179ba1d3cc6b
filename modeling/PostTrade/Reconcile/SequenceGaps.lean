import PostTrade.Reconcile.Reconciler

/-!
# What the gap scan declares missing

`_find_sequence_gaps` sorts the distinct sequences of the ticks it is given and reports every pair
of neighbours that are more than one apart.  `declares_findSequenceGaps_iff` reads the report
back: it declares missing exactly the integers no given tick carries although given ticks carry
smaller and larger ones.

Which ticks are given is decided by exchange time, while what is missing is decided by sequence.
`windows_compose_iff` says what follows for reconciling adjacent windows one after the other
instead of the whole range at once: the two agree exactly when no window reads around a sequence
the whole range has, and every gap has ticks on both sides of it inside one window.
-/

set_option autoImplicit false

namespace PostTrade

/-! ## Reading a break -/

/-- The count in the text of a sequence-gap break. -/
def Break.missingCount (b : Break) : ℤ :=
  match b.detail with
  | [_, _, _, _, _, _, _, .int n, _] => n
  | _ => 0

/-- The break declares sequence `m` missing: it is one of the `missingCount` numbers from
`relatedSequence` on. -/
def Break.Declares (b : Break) (m : ℤ) : Prop :=
  b.breakType = .sequenceGap ∧
    ∃ first, b.relatedSequence = some first ∧ first ≤ m ∧ m < first + b.missingCount

/-- Some break of the list declares `m` missing. -/
def DeclaredMissing (breaks : List Break) (m : ℤ) : Prop := ∃ b ∈ breaks, b.Declares m

namespace Reconciler

theorem gapBreak_declares_iff {symbol : Str} {prev curr m : ℤ} {t : Time} :
    (gapBreak symbol prev curr t).Declares m ↔ prev < m ∧ m < curr := by
  simp only [Break.Declares, gapBreak, Break.missingCount, Option.some.injEq, true_and,
    exists_eq_left']
  omega

/-! ## The scan over a frame -/

/-- Some tick of the frame carries sequence `x`. -/
def Carried (ticksDf : List TickRow) (x : ℤ) : Prop := ∃ t ∈ ticksDf, t.sequence = x

theorem keys_seqTime (ticksDf : List TickRow) (x : ℤ) :
    x ∈ (seqTime ticksDf).map Prod.fst ↔ Carried ticksDf x := by
  simp [seqTime, Carried, eq_comm]

theorem mem_seqs (ticksDf : List TickRow) (x : ℤ) : x ∈ seqs ticksDf ↔ Carried ticksDf x := by
  rw [seqs, Frame.mem_sortBy, List.mem_dedup, keys_seqTime]

theorem seqs_pairwise_lt (ticksDf : List TickRow) : (seqs ticksDf).Pairwise (· < ·) :=
  Frame.sortBy_pairwise_lt id (by simpa using List.nodup_dedup _)

theorem seqs_pairwise_le (ticksDf : List TickRow) : (seqs ticksDf).Pairwise (· ≤ ·) :=
  (seqs_pairwise_lt ticksDf).imp le_of_lt

/-- The time of the last tick carrying a sequence, which a break that ends there reports. -/
def closingTime (ticksDf : List TickRow) (x : ℤ) : Time :=
  (Frame.Dict.get (seqTime ticksDf) x).getD 0

theorem get_seqTime {ticksDf : List TickRow} {x : ℤ} (h : Carried ticksDf x) :
    Frame.Dict.get (seqTime ticksDf) x = some (closingTime ticksDf x) := by
  obtain ⟨t, ht⟩ := Option.ne_none_iff_exists'.mp
    (mt Frame.Dict.get_eq_none_iff.mp (not_not_intro ((keys_seqTime ticksDf x).mpr h)))
  rw [closingTime, ht, Option.getD_some]

/-- What a break reports as its time is the time of a tick. -/
theorem exists_closingTime {ticksDf : List TickRow} {x : ℤ} (h : Carried ticksDf x) :
    ∃ t ∈ ticksDf, t.sequence = x ∧ t.time = closingTime ticksDf x := by
  have hmem := Frame.Dict.mem_of_get (get_seqTime h)
  obtain ⟨t, ht, heq⟩ := List.mem_map.mp hmem
  exact ⟨t, Frame.mem_sortBy.mp ht, congrArg Prod.fst heq, congrArg Prod.snd heq⟩

/-- **The gap scan gap by gap**: one break for each gap among the distinct sequences. -/
theorem findSequenceGaps_eq (symbol : Str) (ticksDf : List TickRow) :
    findSequenceGaps symbol ticksDf = (Gaps.gaps (seqs ticksDf)).map fun p ↦
      gapBreak symbol p.1 p.2 (closingTime ticksDf p.2) := by
  have hverdict : ∀ p ∈ Gaps.pairwise (seqs ticksDf),
      gapVerdict symbol (seqTime ticksDf) p =
        if decide (p.2 - p.1 > 1) then
          some (gapBreak symbol p.1 p.2 (closingTime ticksDf p.2))
        else none := by
    intro p hp
    have hcarried := (mem_seqs ticksDf p.2).mp (Gaps.mem_of_mem_pairwise hp).2
    rw [gapVerdict, get_seqTime hcarried, Option.map_some]
    simp only [decide_eq_true_eq]
  rw [findSequenceGaps, Gaps.gaps, ← List.filterMap_eq_map, List.filterMap_filter]
  split
  · rename_i hempty
    simp [hempty, seqs, seqTime, Gaps.pairwise, Frame.sortBy]
  · exact List.filterMap_congr hverdict

/-- **What the gap scan declares missing.** -/
theorem declares_findSequenceGaps_iff (symbol : Str) (ticksDf : List TickRow) (m : ℤ) :
    DeclaredMissing (findSequenceGaps symbol ticksDf) m ↔ Gaps.Between (Carried ticksDf) m := by
  rw [← Gaps.Between.congr (mem_seqs ticksDf),
    ← Gaps.exists_pairwise_iff (seqs_pairwise_le ticksDf), DeclaredMissing, findSequenceGaps_eq]
  constructor
  · rintro ⟨b, hb, hm⟩
    obtain ⟨p, hp, rfl⟩ := List.mem_map.mp hb
    exact ⟨p, (Gaps.mem_gaps.mp hp).1, gapBreak_declares_iff.mp hm⟩
  · rintro ⟨p, hp, hm⟩
    have hgap : p ∈ Gaps.gaps (seqs ticksDf) := Gaps.mem_gaps.mpr ⟨hp, by omega⟩
    exact ⟨_, List.mem_map_of_mem hgap, gapBreak_declares_iff.mpr hm⟩

/-- There are as many breaks as gaps among the sequences. -/
theorem length_findSequenceGaps (symbol : Str) (ticksDf : List TickRow) :
    (findSequenceGaps symbol ticksDf).length = (Gaps.gaps (seqs ticksDf)).length := by
  rw [findSequenceGaps_eq, List.length_map]

/-! ## Windows -/

variable (r : Reconciler) (ticks : TickStore) (book : BookStore) (symbol : Str)

/-- Reconciling the window `(start, stop)` reads a tick of the symbol with sequence `x`. -/
def Reads (window : Time × Time) (x : ℤ) : Prop :=
  ∃ t ∈ ticks, t.symbol = symbol ∧ window.1 - r.tickMatchWindow ≤ t.time ∧
    t.time ≤ window.2 + r.tickMatchWindow ∧ t.sequence = x

instance (window : Time × Time) (x : ℤ) : Decidable (r.Reads ticks symbol window x) :=
  inferInstanceAs (Decidable (∃ t ∈ ticks, _))

/-- **What reconciling a window declares missing.** -/
theorem declares_reconcileSymbol_iff (window : Time × Time) (m : ℤ) :
    DeclaredMissing (r.reconcileSymbol ticks book symbol window.1 window.2) m ↔
      Gaps.Between (r.Reads ticks symbol window) m := by
  have hscan : DeclaredMissing (r.reconcileSymbol ticks book symbol window.1 window.2) m ↔
      DeclaredMissing (findSequenceGaps symbol (ticks.readTicksDf symbol
        (window.1 - r.tickMatchWindow) (window.2 + r.tickMatchWindow))) m := by
    rw [← r.filter_sequenceGap_reconcileSymbol ticks book]
    constructor
    · rintro ⟨b, hb, hm⟩
      exact ⟨b, List.mem_filter.mpr ⟨hb, by simpa using hm.1⟩, hm⟩
    · rintro ⟨b, hb, hm⟩
      exact ⟨b, List.mem_of_mem_filter hb, hm⟩
  rw [hscan, declares_findSequenceGaps_iff]
  refine Gaps.Between.congr (fun x ↦ ?_) m
  simp only [Carried, TickStore.mem_readTicksDf, Reads, and_assoc]

/-- A window inside another reads no more than the other. -/
theorem Reads.mono {r : Reconciler} {ticks : TickStore} {symbol : Str} {v w : Time × Time}
    (h₁ : w.1 ≤ v.1) (h₂ : v.2 ≤ w.2) {x : ℤ} (h : r.Reads ticks symbol v x) :
    r.Reads ticks symbol w x := by
  obtain ⟨t, ht, hsym, hlo, hhi, hx⟩ := h
  exact ⟨t, ht, hsym, by linarith, by linarith, hx⟩

/-- Reconciling the windows one by one declares missing what reconciling the whole range does. -/
def WindowsCompose (whole : Time × Time) (windows : List (Time × Time)) : Prop :=
  ∀ m, (∃ w ∈ windows,
      DeclaredMissing (r.reconcileSymbol ticks book symbol w.1 w.2) m) ↔
    DeclaredMissing (r.reconcileSymbol ticks book symbol whole.1 whole.2) m

/-- No window reads around a sequence of the whole range: if it reads a smaller and a larger one,
it reads this one too. -/
def NoneReadAround (whole : Time × Time) (windows : List (Time × Time)) : Prop :=
  ∀ w ∈ windows, ∀ x, r.Reads ticks symbol whole x →
    (∃ a, r.Reads ticks symbol w a ∧ a < x) → (∃ b, r.Reads ticks symbol w b ∧ x < b) →
      r.Reads ticks symbol w x

/-- Every gap of the whole range has ticks on both sides of it inside one window. -/
def GapsHeld (whole : Time × Time) (windows : List (Time × Time)) : Prop :=
  ∀ m, Gaps.Between (r.Reads ticks symbol whole) m →
    ∃ w ∈ windows, (∃ a, r.Reads ticks symbol w a ∧ a < m) ∧ ∃ b, r.Reads ticks symbol w b ∧ m < b

variable {r ticks book symbol}

theorem windowsCompose_iff {whole : Time × Time} {windows : List (Time × Time)}
    (hsub : ∀ w ∈ windows, ∀ x, r.Reads ticks symbol w x → r.Reads ticks symbol whole x) :
    r.WindowsCompose ticks book symbol whole windows ↔
      r.NoneReadAround ticks symbol whole windows ∧ r.GapsHeld ticks symbol whole windows := by
  simp only [WindowsCompose, declares_reconcileSymbol_iff]
  constructor
  · intro h
    refine ⟨fun w hw x hx ha hb ↦ ?_, fun m hm ↦ ?_⟩
    · by_contra hnot
      exact ((h x).mp ⟨w, hw, hnot, ha, hb⟩).1 hx
    · obtain ⟨w, hw, -, hsides⟩ := (h m).mpr hm
      exact ⟨w, hw, hsides⟩
  · rintro ⟨haround, hheld⟩ m
    constructor
    · rintro ⟨w, hw, hm, ⟨a, ha, ham⟩, b, hb, hmb⟩
      refine ⟨fun hwhole ↦ hm ?_, ⟨a, hsub w hw a ha, ham⟩, b, hsub w hw b hb, hmb⟩
      exact haround w hw m hwhole ⟨a, ha, ham⟩ ⟨b, hb, hmb⟩
    · intro hm
      obtain ⟨w, hw, hsides⟩ := hheld m hm
      exact ⟨w, hw, fun hread ↦ hm.1 (hsub w hw m hread), hsides⟩

/-- The windows between consecutive cut points lie inside the window from the first to the
last. -/
theorem pairwise_subset {cuts : List Time} (hcuts : cuts.Pairwise (· < ·)) {t₀ tₖ : Time}
    (h₀ : cuts.head? = some t₀) (hₖ : cuts.getLast? = some tₖ) {w : Time × Time}
    (hw : w ∈ Gaps.pairwise cuts) : t₀ ≤ w.1 ∧ w.2 ≤ tₖ := by
  obtain ⟨ha, hb⟩ := Gaps.mem_of_mem_pairwise hw
  constructor
  · cases cuts with
    | nil => simp at h₀
    | cons c rest =>
      cases h₀
      rcases List.mem_cons.mp ha with h | h
      · exact h.ge
      · exact ((List.pairwise_cons.mp hcuts).1 _ h).le
  · obtain ⟨init, rfl⟩ := List.getLast?_eq_some_iff.mp hₖ
    rcases List.mem_append.mp hb with h | h
    · exact ((List.pairwise_append.mp hcuts).2.2 _ h _ (by simp)).le
    · exact (List.mem_singleton.mp h).le

variable (r ticks book symbol)

/-- **When windowed gap detection composes.**  Cut a range at `t₀ < t₁ < … < tₖ`: the windows
together declare missing what the whole range does exactly when no window reads around a sequence
the whole range has, and every gap has ticks on both sides inside one window. -/
theorem windows_compose_iff (cuts : List Time) (hcuts : cuts.Pairwise (· < ·)) (t₀ tₖ : Time)
    (h₀ : cuts.head? = some t₀) (hₖ : cuts.getLast? = some tₖ) :
    r.WindowsCompose ticks book symbol (t₀, tₖ) (Gaps.pairwise cuts) ↔
      r.NoneReadAround ticks symbol (t₀, tₖ) (Gaps.pairwise cuts) ∧
        r.GapsHeld ticks symbol (t₀, tₖ) (Gaps.pairwise cuts) := by
  refine windowsCompose_iff fun w hw x hx ↦ ?_
  obtain ⟨hlo, hhi⟩ := pairwise_subset hcuts h₀ hₖ hw
  exact hx.mono hlo hhi

/-! ### Two cuts at fifty seconds -/

/-- A tick of the symbol with the given sequence and exchange time, in seconds. -/
def tickAt (sequence time : ℤ) : TickRow :=
  TickRow.ofTick
    { symbol := "BTC-USD".toList, sequence, price := 100, exchange := .coinbase
      channel := "ticker".toList, exchangeTimestamp := seconds time
      ingestTimestamp := seconds time }
    (some "worker-0".toList)

/-- Nothing is missing, but the second tick carries a late exchange time. -/
def lateStampedTicks : TickStore := [tickAt 1 0, tickAt 3 10, tickAt 2 100]

/-- The second tick was lost, in a quiet period around the cut. -/
def quietCutTicks : TickStore := [tickAt 1 0, tickAt 3 100]

/-- With all the ticks in the first window nothing is read around and that window holds every
gap, so the two windows find what the whole range does. -/
theorem windows_compose_early_ticks :
    WindowsCompose {} [tickAt 1 0, tickAt 3 10] {} "BTC-USD".toList (0, seconds 100)
      (Gaps.pairwise [0, seconds 50, seconds 100]) := by
  have hfirst : ∀ x, Reads {} [tickAt 1 0, tickAt 3 10] "BTC-USD".toList (0, seconds 100) x →
      Reads {} [tickAt 1 0, tickAt 3 10] "BTC-USD".toList (0, seconds 50) x := by
    rintro x ⟨t, ht, hsym, -, -, hx⟩
    simp only [List.mem_cons, List.not_mem_nil, or_false] at ht
    rcases ht with rfl | rfl
    · exact ⟨_, by simp, hsym, by decide, by decide, hx⟩
    · exact ⟨_, by simp, hsym, by decide, by decide, hx⟩
  refine (windows_compose_iff {} _ {} _ [0, seconds 50, seconds 100] (by decide) 0 (seconds 100)
    rfl rfl).mpr ⟨fun w hw x hx ha _ ↦ ?_, fun m ⟨_, ⟨a, ha, ham⟩, b, hb, hmb⟩ ↦ ?_⟩
  · simp only [Gaps.pairwise, List.mem_cons, List.not_mem_nil, or_false] at hw
    rcases hw with rfl | rfl
    · exact hfirst x hx
    · -- the second window reads no tick at all
      obtain ⟨a, ⟨t, ht, -, hlo, -⟩, -⟩ := ha
      simp only [List.mem_cons, List.not_mem_nil, or_false] at ht
      rcases ht with rfl | rfl
      · exact absurd hlo (by decide)
      · exact absurd hlo (by decide)
  · exact ⟨_, List.mem_cons_self, ⟨a, hfirst a ha, ham⟩, b, hfirst b hb, hmb⟩

/-- Cut at fifty seconds, the first window declares missing a sequence that is in the store, and
the gap across the cut is declared by neither window. -/
theorem windows_do_not_compose :
    (DeclaredMissing (reconcileSymbol {} lateStampedTicks {} "BTC-USD".toList 0 (seconds 50)) 2 ∧
      Carried lateStampedTicks 2 ∧
      ¬ WindowsCompose {} lateStampedTicks {} "BTC-USD".toList (0, seconds 100)
        (Gaps.pairwise [0, seconds 50, seconds 100])) ∧
    (DeclaredMissing (reconcileSymbol {} quietCutTicks {} "BTC-USD".toList 0 (seconds 100)) 2 ∧
      ¬ WindowsCompose {} quietCutTicks {} "BTC-USD".toList (0, seconds 100)
        (Gaps.pairwise [0, seconds 50, seconds 100])) := by
  have hiff : ∀ ticks, WindowsCompose {} ticks {} "BTC-USD".toList (0, seconds 100)
      (Gaps.pairwise [0, seconds 50, seconds 100]) ↔ _ := fun ticks ↦
    windowsCompose_iff fun w hw x hx ↦ by
      have hcuts : [0, seconds 50, seconds 100].Pairwise (· < ·) := by decide
      obtain ⟨hlo, hhi⟩ := pairwise_subset hcuts rfl rfl hw
      exact hx.mono hlo hhi
  refine ⟨⟨?_, ⟨tickAt 2 100, by simp [lateStampedTicks], rfl⟩, ?_⟩, ?_, ?_⟩
  · rw [declares_reconcileSymbol_iff {} _ _ _ (0, seconds 50)]
    exact ⟨by decide, ⟨1, by decide, by decide⟩, 3, by decide, by decide⟩
  · rw [hiff]
    rintro ⟨haround, -⟩
    -- the first window reads 1 and 3 but not the 2 between them
    exact absurd (haround (0, seconds 50) List.mem_cons_self 2 (by decide)
      ⟨1, by decide, by decide⟩ ⟨3, by decide, by decide⟩) (by decide)
  · rw [declares_reconcileSymbol_iff {} _ _ _ (0, seconds 100)]
    exact ⟨by decide, ⟨1, by decide, by decide⟩, 3, by decide, by decide⟩
  · rw [hiff]
    rintro ⟨-, hheld⟩
    obtain ⟨w, hw, ⟨a, ⟨t, ht, -, hlo, hhi, ha⟩, ham⟩, b, ⟨u, hu, -, hlo', hhi', hb⟩, hmb⟩ :=
      hheld 2 ⟨by decide, ⟨1, by decide, by decide⟩, 3, by decide, by decide⟩
    -- the smaller sequence can only be read by the first window, the larger only by the second
    simp only [quietCutTicks, List.mem_cons, List.not_mem_nil, or_false] at ht hu
    simp only [Gaps.pairwise, List.mem_cons, List.not_mem_nil, or_false] at hw
    rcases ht with rfl | rfl
    · rcases hu with rfl | rfl
      · exact absurd (hmb.trans_eq hb.symm) (by decide)
      · rcases hw with rfl | rfl
        · exact absurd hhi' (by decide)
        · exact absurd hlo (by decide)
    · exact absurd (ha.trans_lt ham) (by decide)

end Reconciler

end PostTrade
