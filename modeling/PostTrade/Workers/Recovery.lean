import PostTrade.Workers.Safety

/-!
# Recovery with `claim_stale`

Recovery consumers take over what others left pending, write it and acknowledge it.  Nothing is
lost that way: an entry leaves the PEL only after somebody wrote it, so once the PEL is empty and
nothing is undelivered, every entry is in the store (`claims_lose_nothing`).

It may be there more than once.  Whoever takes an entry over cannot see whether it was written:
the write and the acknowledgement are two steps, a crash can fall between them, and the table of
ticks has no key.  An entry is there exactly once if every claim that took it found it unwritten
and with nobody about to write it.
-/

set_option autoImplicit false

namespace PostTrade

namespace Pool

open ConsumerGroup Machine

/-- Nothing is pending and nothing is undelivered. -/
def Drained (s : Pool) : Prop := s.stream.pelIds = [] ∧ s.stream.cursor = s.stream.entries.length

instance (s : Pool) : Decidable s.Drained := inferInstanceAs (Decidable (_ ∧ _))

variable {store₀ : TickStore} {s : Pool} {k : ℕ}

/-- When the pool is drained, every entry was acknowledged, and so was written. -/
theorem Sound.acked_of_drained (hs : Sound store₀ s) (hd : s.Drained)
    (hk : k < s.stream.entries.length) : k ∈ s.history.acked := by
  refine (hs.pending k (hd.2 ▸ hk)).resolve_left ?_
  rw [hd.1]
  exact List.not_mem_nil

theorem Sound.one_le_timesWritten (hs : Sound store₀ s) (hack : k ∈ s.history.acked) :
    1 ≤ s.timesWritten k :=
  List.count_pos_iff.mpr (hs.acked k hack).1

/-- A row written for an entry carries the tick of the entry. -/
theorem Sound.written_genuine (hs : Sound store₀ s) {h : Handled} (hh : h ∈ s.history.written) :
    s.stream.entries[h.1.messageId]? = some ⟨some h.1.tick⟩ :=
  hs.genuine h (hs.written h hh)

/-- **Claims lose nothing, and duplicate only what they do not spare.**  When the pool is drained,
whatever the schedule, the crashes and the claims: every entry is in the store at least once, and
exactly once if no claim took it after it was written or from under somebody about to write
it. -/
theorem claims_lose_nothing (store₀ : TickStore) (s : Pool) (as : List Action)
    (hrun : run step (initial store₀) as = some s) (hdrained : s.Drained) :
    s.store = store₀ ++ s.history.written.map rowOf ∧
      (∀ h ∈ s.history.written, s.stream.entries[h.1.messageId]? = some ⟨some h.1.tick⟩) ∧
      ∀ k < s.stream.entries.length,
        1 ≤ s.timesWritten k ∧
          (Along step (ClaimSpares k) (initial store₀) as → s.timesWritten k = 1) := by
  have hs := sound_of_run hrun
  refine ⟨hs.store, fun h hh ↦ hs.written_genuine hh, fun k hk ↦ ?_⟩
  have hone := hs.one_le_timesWritten (hs.acked_of_drained hdrained hk)
  refine ⟨hone, fun hspare ↦ ?_⟩
  have := (once_of_run hrun hspare).le_one
  omega

/-! ### A crash before the write and a crash after it -/

/-- A worker reads an entry and crashes; a recovery consumer claims it, writes and acknowledges.
The worker takes `steps` steps after the read before it crashes. -/
def recoveredRun (steps : ℕ) : List Action :=
  [.publish (btcTick 1 0), .spawn "worker-crashed".toList (.worker {}), .work 0, .work 0]
    ++ List.replicate steps (.work 0)
    ++ [.crash 0, .spawn "worker-recovery".toList .recovery, .work 1, .claim 1 0 100, .work 1,
        .work 1]

/-- The state this leaves. -/
def recoveredPool (steps : ℕ) : Pool :=
  (run step (initial []) (recoveredRun steps)).getD (initial [])

/-- Crashed before the write: the entry is in the store once. -/
theorem claims_lose_nothing_crash_before_write :
    (recoveredPool 0).stream.entries.length = 1 ∧ (recoveredPool 0).timesWritten 0 = 1 := by
  have hrun : run step (initial []) (recoveredRun 0) = some (recoveredPool 0) := by decide +kernel
  have hdrained : (recoveredPool 0).Drained := by decide +kernel
  have hone : (recoveredPool 0).stream.entries.length = 1 := by decide +kernel
  obtain ⟨-, -, hall⟩ := claims_lose_nothing [] (recoveredPool 0) (recoveredRun 0) hrun hdrained
  have hzero : 0 < (recoveredPool 0).stream.entries.length := hone ▸ one_pos
  exact ⟨hone, (hall 0 hzero).2 (by decide +kernel)⟩

/-- Crashed between the write and the acknowledgement: the pool is drained and the entry is in the
store twice. -/
theorem crash_after_write_duplicates :
    run step (initial []) (recoveredRun 1) = some (recoveredPool 1) ∧ (recoveredPool 1).Drained ∧
      (recoveredPool 1).store =
        [TickRow.ofTick (btcTick 1 0) (some "worker-crashed".toList),
          TickRow.ofTick (btcTick 1 0) (some "worker-recovery".toList)] ∧
      ¬ (recoveredPool 1).timesWritten 0 = 1 := by
  decide +kernel

end Pool

end PostTrade
