import PostTrade.Ingest.Restarts
import PostTrade.Reconcile.SameTicks
import PostTrade.Workers.Recovery

/-!
# From the ingestor to the reconciler

The live path end to end: one process ingests and publishes, any number of workers and recovery
consumers move the entries of the stream into the tick store, and the reconciler reads the store.
The ingestor looks at nothing in the stream, so what it and a pool do together is a schedule of the
pool that publishes what the ingestor does, as far as it has come: `publishes as` is a prefix of
the ticks its run publishes.

Delivery is at least once, and the table of ticks has no key.  To the reconciler it is exactly once
all the same (`redelivery_invisible`): the ingestor gives every tick of a symbol a number of its
own, and rows that repeat a tick are seen as one.  And what the gap scan reports while the pool is
at work is what is on its way (`declared_missing_iff`): a number that later ticks of its symbol have
overtaken, under an entry that is not delivered yet or still pending.
-/

set_option autoImplicit false

namespace PostTrade

namespace Pool

open ConsumerGroup Machine Numbering TickStore

/-! ## What is published and what is written -/

/-- The ticks published in a run. -/
def publishes (as : List Action) : List Tick :=
  as.filterMap fun a ↦
    match a with
    | .publish tick => some tick
    | _ => none

/-- The store of a pool that has written the same entries once each, in the order of the stream. -/
def writtenOnce (s : Pool) : TickStore :=
  (parseEntries (s.stream.entries.zipIdx.filter fun e ↦ e.2 ∈ ids s.history.written)).map
    fun m ↦ TickRow.ofTick m.tick none

/-- Entry `k` holds a tick of the symbol, and has been written. -/
def WrittenFor (s : Pool) (symbol : Str) (k : ℕ) : Prop :=
  k ∈ ids s.history.written ∧ ∃ tick, s.stream.entries[k]? = some ⟨some tick⟩ ∧ tick.symbol = symbol

/-- Entry `k` holds the tick of the symbol with number `m`.  It has not been written, but entries of
the symbol before and after it have. -/
structure Overtaken (s : Pool) (symbol : Str) (m : ℤ) (k : ℕ) : Prop where
  tick : ∃ tick, s.stream.entries[k]? = some ⟨some tick⟩ ∧ tick.symbol = symbol ∧ tick.sequence = m
  unwritten : k ∉ ids s.history.written
  earlier : ∃ i < k, s.WrittenFor symbol i
  later : ∃ j > k, s.WrittenFor symbol j

/-- Entry `k` is on its way: not delivered yet, or pending, and in no case acknowledged. -/
def OnItsWay (s : Pool) (k : ℕ) : Prop :=
  (s.stream.cursor ≤ k ∨ k ∈ s.stream.pelIds) ∧ k ∉ s.history.acked

/-- Only a publish changes the entries of the stream. -/
theorem entries_step {s s' : Pool} {a : Action} (h : s.step a = some s') :
    s'.stream.entries = s.stream.entries ++ (publishes [a]).map fun tick ↦ ⟨some tick⟩ := by
  by_cases hpublish : ∃ tick, a = .publish tick
  · obtain ⟨tick, rfl⟩ := hpublish
    cases h
    rfl
  · have hnone : publishes [a] = [] := by
      cases a with
      | publish tick => exact absurd ⟨tick, rfl⟩ hpublish
      | _ => rfl
    rw [hnone, List.map_nil, List.append_nil]
    cases effect_of_step h with
    | publish tick => exact absurd ⟨tick, rfl⟩ hpublish
    | quiet a i p p' stream _ _ _ _ _ _ hentries => exact hentries
    | read i p p' args stream messages _ _ _ _ hread =>
      exact (StreamConsumer.read_eq_ok hread).2.2.1
    | claim i p p' minIdleMs count stream messages _ _ hclaim =>
      exact (StreamConsumer.claimStale_eq_ok hclaim).1
    | ack i p batch => exact StreamConsumer.ackBatch_entries _ _
    | _ => rfl

variable {store₀ : TickStore} {s : Pool} {as : List Action}

/-- The stream holds the published ticks in the order they were published. -/
theorem entries_of_run (hrun : run step (initial store₀) as = some s) :
    s.stream.entries = (publishes as).map fun tick ↦ ⟨some tick⟩ := by
  refine run_prefix_induction (I := fun as s ↦
    s.stream.entries = (publishes as).map fun tick ↦ ⟨some tick⟩) (fun as s a s' _ ih h ↦ ?_) rfl
      hrun
  rw [entries_step h, ih, publishes, publishes, publishes, List.filterMap_append, List.map_append]

/-- Entry `k` of the stream is the `k`-th published tick. -/
theorem getElem?_entries_iff (hrun : run step (initial store₀) as = some s) {k : ℕ} {tick : Tick} :
    s.stream.entries[k]? = some ⟨some tick⟩ ↔ (publishes as)[k]? = some tick := by
  rw [entries_of_run hrun, List.getElem?_map, Option.map_eq_some_iff]
  constructor
  · rintro ⟨tick', htick, heq⟩
    cases heq
    exact htick
  · intro htick
    exact ⟨tick, htick, rfl⟩

/-! ## At least once looks like once -/

theorem mem_writtenOnce {t : TickRow} : t ∈ s.writtenOnce ↔
    ∃ k ∈ ids s.history.written, ∃ tick, s.stream.entries[k]? = some ⟨some tick⟩ ∧
      TickRow.ofTick tick none = t := by
  simp only [writtenOnce, List.mem_map, mem_parseEntries, List.mem_filter, decide_eq_true_eq,
    List.mem_zipIdx_iff_getElem?]
  constructor
  · rintro ⟨m, ⟨hentry, hk⟩, rfl⟩
    exact ⟨m.messageId, hk, m.tick, hentry, rfl⟩
  · rintro ⟨k, hk, tick, hentry, rfl⟩
    exact ⟨⟨k, tick⟩, ⟨hentry, hk⟩, rfl⟩

/-- A pool that started on an empty store has the ticks of the entries it has written, no others
and none of them altered. -/
theorem sameTicks_writtenOnce (hs : Sound [] s) : SameTicks s.store s.writtenOnce := by
  intro x
  rw [hs.store, List.nil_append, List.map_map, List.mem_map, List.mem_map]
  constructor
  · rintro ⟨h, hh, rfl⟩
    exact ⟨_, mem_writtenOnce.mpr ⟨h.1.messageId, List.mem_map_of_mem hh, h.1.tick,
      hs.written_genuine hh, rfl⟩, rfl⟩
  · rintro ⟨t, ht, rfl⟩
    obtain ⟨k, hk, tick, hentry, rfl⟩ := mem_writtenOnce.mp ht
    obtain ⟨h, hh, rfl⟩ := List.mem_map.mp hk
    refine ⟨h, hh, ?_⟩
    have hgenuine := hs.written_genuine hh
    rw [hentry, Option.some_inj] at hgenuine
    cases hgenuine
    rfl

/-- Numbered ticks of one symbol that share their number are one tick. -/
theorem timesDetermined_writtenOnce (hrun : run step (initial store₀) as = some s)
    (hnumbered : Numbered Tick.symbol Tick.sequence (publishes as)) :
    TimesDetermined s.writtenOnce := by
  intro t ht u hu hsymbol hsequence
  obtain ⟨i, -, x, hx, rfl⟩ := mem_writtenOnce.mp ht
  obtain ⟨j, -, y, hy, rfl⟩ := mem_writtenOnce.mp hu
  rw [getElem?_entries_iff hrun] at hx hy
  have hsame : x = y := List.inj_on_of_nodup_map hnumbered.nodup (List.mem_of_getElem? hx)
    (List.mem_of_getElem? hy) (Prod.ext hsymbol hsequence)
  rw [hsame]

/-- A drained pool has written every published tick. -/
theorem writtenOnce_of_drained (hrun : run step (initial store₀) as = some s) (hd : s.Drained) :
    s.writtenOnce = (publishes as).map fun tick ↦ TickRow.ofTick tick none := by
  have hs := sound_of_run hrun
  have hall : (s.stream.entries.zipIdx.filter fun e ↦ e.2 ∈ ids s.history.written)
      = s.stream.entries.zipIdx := by
    refine List.filter_eq_self.mpr fun e he ↦ decide_eq_true ?_
    have hlt := (List.getElem?_eq_some_iff.mp (List.mem_zipIdx_iff_getElem?.mp he)).1
    exact (hs.acked _ (hs.acked_of_drained hd hlt)).1
  have hticks : ∀ (ticks : List Tick) (n : ℕ),
      (parseEntries ((ticks.map fun tick ↦ (⟨some tick⟩ : Entry)).zipIdx n)).map
        (fun m ↦ TickRow.ofTick m.tick none) = ticks.map fun tick ↦ TickRow.ofTick tick none := by
    intro ticks
    induction ticks with
    | nil => exact fun _ ↦ rfl
    | cons tick rest ih =>
      intro n
      exact congrArg _ (ih (n + 1))
  rw [writtenOnce, hall, entries_of_run hrun, hticks]

/-- What one process publishes is numbered, as far as it has come. -/
theorem numbered_publishes {p : IngestorProcess} {stream : TickStream}
    (hpublish : publishes as <+: published (p.final stream).log) :
    Numbered Tick.symbol Tick.sequence (publishes as) :=
  have hmem : published (p.final stream).log ∈ publishedBy stream [p] := List.mem_cons_self
  Numbered.of_prefix (numbered_of_mem_publishedBy hmem) hpublish

/-- **To the reconciler at-least-once delivery is exactly-once delivery.**  One process ingests
while workers, crashes and claims go on in any order: at every point, for every book, window and
list of symbols, the breaks are those of a store with one row for each entry written.  Once the pool
is drained they are those of a store with one row for each tick published. -/
theorem redelivery_invisible (p : IngestorProcess) (stream : TickStream) (as : List Action)
    (s : Pool) (hrun : run step (initial []) as = some s)
    (hpublish : publishes as <+: published (p.final stream).log) (r : Reconciler)
    (book : BookStore) (symbols : List Str) (start stop : Time) :
    r.reconcileAll s.store book symbols start stop
        = r.reconcileAll s.writtenOnce book symbols start stop ∧
      (s.Drained → r.reconcileAll s.store book symbols start stop
        = r.reconcileAll ((publishes as).map fun tick ↦ TickRow.ofTick tick none) book symbols
            start stop) := by
  have hsame := r.reconcileAll_congr (sameTicks_writtenOnce (sound_of_run hrun))
    (timesDetermined_writtenOnce hrun (numbered_publishes hpublish)) book symbols start stop
  refine ⟨hsame, fun hd ↦ ?_⟩
  rw [hsame, writtenOnce_of_drained hrun hd]

/-! ## The gap scan of a pool at work -/

/-- The window reads every published tick of the symbol. -/
def Covers (r : Reconciler) (symbol : Str) (window : Time × Time) (as : List Action) : Prop :=
  ∀ tick ∈ publishes as, tick.symbol = symbol →
    window.1 - r.tickMatchWindow ≤ tick.exchangeTimestamp ∧
      tick.exchangeTimestamp ≤ window.2 + r.tickMatchWindow

instance (r : Reconciler) (symbol : Str) (window : Time × Time) (as : List Action) :
    Decidable (Covers r symbol window as) := inferInstanceAs (Decidable (∀ tick ∈ publishes as, _))

section

variable {r : Reconciler} {symbol : Str} {window : Time × Time}

/-- A window that covers the symbol reads the numbers of the entries written for it. -/
theorem reads_iff (hrun : run step (initial []) as = some s) (hcovers : Covers r symbol window as)
    {x : ℤ} : r.Reads s.store symbol window x ↔
      ∃ k tick, k ∈ ids s.history.written ∧ (publishes as)[k]? = some tick ∧
        tick.symbol = symbol ∧ tick.sequence = x := by
  have hs := sound_of_run hrun
  constructor
  · rintro ⟨t, ht, hsymbol, -, -, hx⟩
    rw [hs.store, List.nil_append, List.mem_map] at ht
    obtain ⟨h, hh, rfl⟩ := ht
    exact ⟨h.1.messageId, h.1.tick, List.mem_map_of_mem hh,
      (getElem?_entries_iff hrun).mp (hs.written_genuine hh), hsymbol, hx⟩
  · rintro ⟨k, tick, hk, htick, hsymbol, hx⟩
    obtain ⟨h, hh, rfl⟩ := List.mem_map.mp hk
    have hgenuine := (getElem?_entries_iff hrun).mp (hs.written_genuine hh)
    rw [htick, Option.some_inj] at hgenuine
    subst hgenuine
    obtain ⟨hlo, hhi⟩ := hcovers _ (List.mem_of_getElem? htick) hsymbol
    refine ⟨rowOf h, ?_, hsymbol, hlo, hhi, hx⟩
    rw [hs.store]
    exact List.mem_append_right _ (List.mem_map_of_mem hh)

/-- A number that is read belongs to an entry written for the symbol, before or after another entry
of it as the numbers say. -/
theorem exists_writtenFor (hrun : run step (initial []) as = some s)
    (hnumbered : Numbered Tick.symbol Tick.sequence (publishes as))
    (hcovers : Covers r symbol window as) {k : ℕ} {tick : Tick}
    (htick : (publishes as)[k]? = some tick) (hsymbol : tick.symbol = symbol) :
    ((∃ a, r.Reads s.store symbol window a ∧ a < tick.sequence) ↔
        ∃ i < k, s.WrittenFor symbol i) ∧
      ((∃ b, r.Reads s.store symbol window b ∧ tick.sequence < b) ↔
        ∃ j > k, s.WrittenFor symbol j) := by
  constructor
  · constructor
    · rintro ⟨a, ha, hlt⟩
      obtain ⟨i, u, hi, hu, husymbol, rfl⟩ := (reads_iff hrun hcovers).mp ha
      exact ⟨i, (hnumbered.lt_iff hu htick (husymbol.trans hsymbol.symm)).mp hlt, hi, u,
        (getElem?_entries_iff hrun).mpr hu, husymbol⟩
    · rintro ⟨i, hik, hi, u, hu, husymbol⟩
      rw [getElem?_entries_iff hrun] at hu
      exact ⟨u.sequence, (reads_iff hrun hcovers).mpr ⟨i, u, hi, hu, husymbol, rfl⟩,
        hnumbered.lt_of_getElem? hu htick (husymbol.trans hsymbol.symm) hik⟩
  · constructor
    · rintro ⟨b, hb, hlt⟩
      obtain ⟨j, v, hj, hv, hvsymbol, rfl⟩ := (reads_iff hrun hcovers).mp hb
      exact ⟨j, (hnumbered.lt_iff htick hv (hsymbol.trans hvsymbol.symm)).mp hlt, hj, v,
        (getElem?_entries_iff hrun).mpr hv, hvsymbol⟩
    · rintro ⟨j, hkj, hj, v, hv, hvsymbol⟩
      rw [getElem?_entries_iff hrun] at hv
      exact ⟨v.sequence, (reads_iff hrun hcovers).mpr ⟨j, v, hj, hv, hvsymbol, rfl⟩,
        hnumbered.lt_of_getElem? htick hv (hsymbol.trans hvsymbol.symm) hkj⟩

/-- The scan declares missing what has been overtaken. -/
theorem declaredMissing_iff_overtaken (hrun : run step (initial []) as = some s)
    (hnumbered : Numbered Tick.symbol Tick.sequence (publishes as))
    (hcovers : Covers r symbol window as) (book : BookStore) (m : ℤ) :
    DeclaredMissing (r.reconcileSymbol s.store book symbol window.1 window.2) m ↔
      ∃ k, s.Overtaken symbol m k := by
  rw [Reconciler.declares_reconcileSymbol_iff]
  constructor
  · rintro ⟨hunread, ⟨a, ha, ham⟩, b, hb, hmb⟩
    obtain ⟨_, u, -, hu, husymbol, rfl⟩ := (reads_iff hrun hcovers).mp ha
    obtain ⟨_, v, -, hv, hvsymbol, rfl⟩ := (reads_iff hrun hcovers).mp hb
    -- the numbers of the symbol have no holes, so `m` is one of them
    have hlo := (hnumbered.exists_iff.mp ⟨u, List.mem_of_getElem? hu, husymbol, rfl⟩).1
    have hhi := (hnumbered.exists_iff.mp ⟨v, List.mem_of_getElem? hv, hvsymbol, rfl⟩).2
    obtain ⟨tick, htick, hsymbol, rfl⟩ := hnumbered.exists_iff.mpr
      ⟨hlo.trans ham.le, hmb.le.trans hhi⟩
    obtain ⟨k, hk⟩ := List.mem_iff_getElem?.mp htick
    obtain ⟨hbefore, hafter⟩ := exists_writtenFor hrun hnumbered hcovers hk hsymbol
    exact ⟨k, ⟨tick, (getElem?_entries_iff hrun).mpr hk, hsymbol, rfl⟩,
      fun hwritten ↦ hunread ((reads_iff hrun hcovers).mpr ⟨k, tick, hwritten, hk, hsymbol, rfl⟩),
      hbefore.mp ⟨_, ha, ham⟩, hafter.mp ⟨_, hb, hmb⟩⟩
  · rintro ⟨k, ⟨tick, hentry, hsymbol, rfl⟩, hunwritten, hearlier, hlater⟩
    have hk := (getElem?_entries_iff hrun).mp hentry
    obtain ⟨hbefore, hafter⟩ := exists_writtenFor hrun hnumbered hcovers hk hsymbol
    refine ⟨fun hread ↦ ?_, hbefore.mpr hearlier, hafter.mpr hlater⟩
    obtain ⟨i, u, hi, hu, husymbol, hsequence⟩ := (reads_iff hrun hcovers).mp hread
    have hkey : u.symbol = tick.symbol := husymbol.trans hsymbol.symm
    rcases lt_trichotomy i k with hik | rfl | hki
    · exact absurd hsequence (hnumbered.lt_of_getElem? hu hk hkey hik).ne
    · exact hunwritten hi
    · exact absurd hsequence (hnumbered.lt_of_getElem? hk hu hkey.symm hki).ne'

end

/-- An entry that is not written is on its way. -/
theorem Sound.onItsWay (hs : Sound store₀ s) {k : ℕ} (hk : k ∉ ids s.history.written) :
    s.OnItsWay k := by
  have hunacked : k ∉ s.history.acked := fun hack ↦ hk (hs.acked k hack).1
  refine ⟨?_, hunacked⟩
  rcases lt_or_ge k s.stream.cursor with hlt | hge
  · exact .inr ((hs.pending k hlt).resolve_right hunacked)
  · exact .inl hge

/-- **What the gap scan reports of a pool at work.**  One process ingests while workers, crashes and
claims go on in any order, and the window covers the ticks of the symbol.  At every point a number
is declared missing exactly when an entry with it has been overtaken, and every such entry is on
its way.  Once the pool is drained nothing is declared missing. -/
theorem declared_missing_iff (p : IngestorProcess) (stream : TickStream) (as : List Action)
    (s : Pool) (hrun : run step (initial []) as = some s)
    (hpublish : publishes as <+: published (p.final stream).log) (r : Reconciler)
    (book : BookStore) (symbol : Str) (window : Time × Time)
    (hcovers : Covers r symbol window as) :
    (∀ m, DeclaredMissing (r.reconcileSymbol s.store book symbol window.1 window.2) m ↔
        ∃ k, s.Overtaken symbol m k) ∧
      (∀ m k, s.Overtaken symbol m k → s.OnItsWay k) ∧
      (s.Drained → ∀ m,
        ¬ DeclaredMissing (r.reconcileSymbol s.store book symbol window.1 window.2) m) := by
  have hs := sound_of_run hrun
  have hiff := declaredMissing_iff_overtaken hrun (numbered_publishes hpublish) hcovers book
  refine ⟨hiff, fun m k hk ↦ hs.onItsWay hk.unwritten, fun hd m hm ↦ ?_⟩
  obtain ⟨k, ⟨tick, hentry, -⟩, hunwritten, -⟩ := (hiff m).mp hm
  have hlt := (List.getElem?_eq_some_iff.mp hentry).1
  exact hunwritten (hs.acked k (hs.acked_of_drained hd hlt)).1

/-! ### A worker killed before the write and one killed after it -/

/-- Three trades are published.  The first worker handles one and is killed with the second in its
hands, the other worker writes the third. -/
def overtakenRun : List Action :=
  [.publish (btcTick 1 0), .publish (btcTick 2 10), .publish (btcTick 3 20)]
    ++ runWorkerPool 2 { readBatchSize := 1 }
    ++ List.replicate 6 (.work 0) ++ [.crash 0] ++ List.replicate 3 (.work 1)

/-- Then the other worker is killed too, before it acknowledges, and both entries are claimed. -/
def redeliveredRun : List Action :=
  overtakenRun ++ [.crash 1, .spawn "worker-recovery".toList .recovery, .work 2, .claim 2 0 100,
    .work 2, .work 2]

/-- The states these leave. -/
def overtakenPool : Pool := (run step (initial []) overtakenRun).getD (initial [])

def redeliveredPool : Pool := (run step (initial []) redeliveredRun).getD (initial [])

/-- The third trade is in the store twice, and the breaks are as if it were not. -/
theorem redelivery_invisible_claimed :
    redeliveredPool.store.map TickRow.sequence = [1, 3, 2, 3] ∧
      Reconciler.reconcileAll {} redeliveredPool.store {} ["BTC-USD".toList] 0 20
        = Reconciler.reconcileAll {}
            ((publishes redeliveredRun).map fun tick ↦ TickRow.ofTick tick none) {}
            ["BTC-USD".toList] 0 20 := by
  refine ⟨by decide +kernel, ?_⟩
  exact (redelivery_invisible (btcProcess [0, 10, 20]) (initial []).stream redeliveredRun
    redeliveredPool (by decide +kernel) (by decide +kernel) {} {} _ 0 20).2 (by decide +kernel)

/-- While the second trade is pending under the killed worker, its number is declared missing. -/
theorem declared_missing_pending :
    DeclaredMissing
      (Reconciler.reconcileSymbol {} overtakenPool.store {} "BTC-USD".toList 0 20) 2 := by
  refine ((declared_missing_iff (btcProcess [0, 10, 20]) (initial []).stream overtakenRun
    overtakenPool (by decide +kernel) (by decide +kernel) {} {} "BTC-USD".toList (0, 20)
    (by decide +kernel)).1 2).mpr ⟨1, ⟨btcTick 2 10, ?_, rfl, rfl⟩, ?_, ⟨0, ?_, ?_, btcTick 1 0, ?_,
      rfl⟩, 2, ?_, ?_, btcTick 3 20, ?_, rfl⟩
  all_goals decide +kernel

end Pool

end PostTrade
