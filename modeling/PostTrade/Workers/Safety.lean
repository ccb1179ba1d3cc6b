import PostTrade.Workers.Steps

/-!
# The pool hands every entry to one worker and writes it once

`each_entry_handled_once` is about any number of workers under any schedule, with crashes between
any two steps and nobody calling `claim_stale`.  The count behind it is `Once`: the times an entry
was written and the times it is in the hands of a process about to write it come to at most one
together.

A claim can break `Once` for an entry, but only if it takes the entry after it was written or from
under a process that is about to write it.  `once_step` is proved for runs in which no claim does
that, so that it also serves the recovery consumers.
-/

set_option autoImplicit false

namespace PostTrade

/-- The action is a call of `claim_stale`. -/
def Action.isClaim : Action → Bool
  | .claim _ _ _ => true
  | _ => false

namespace Pool

open ConsumerGroup Machine

/-! ## Counting the writes of an entry -/

/-- How often entry `k` was written. -/
def timesWritten (s : Pool) (k : ℕ) : ℕ := (ids s.history.written).count k

/-- How often entry `k` is in the hands of the process, about to be written. -/
def aboutToWrite (k : ℕ) (p : Process) : ℕ :=
  (p.phase.toWrite.map ConsumedMessage.messageId).count k

/-- Entry `k` was written, or is about to be, at most once; and not at all before delivery. -/
structure Once (s : Pool) (k : ℕ) : Prop where
  le_one : s.timesWritten k + tally (aboutToWrite k) s.processes ≤ 1
  undelivered : s.stream.cursor ≤ k → s.timesWritten k + tally (aboutToWrite k) s.processes = 0

/-- The entry was not written and nobody is about to write it. -/
def Unwritten (s : Pool) (k : ℕ) : Prop :=
  k ∉ ids s.history.written ∧
    ∀ p ∈ s.processes, k ∉ p.phase.toWrite.map ConsumedMessage.messageId

/-- If the action claims entry `k`, the entry was not written and nobody is about to write it. -/
def ClaimSpares (k : ℕ) (s : Pool) : Action → Prop
  | .claim _ minIdleMs count =>
    k ∈ (s.stream.stale minIdleMs.toNat count.toNat s.now).1 → s.Unwritten k
  | _ => True

instance (s : Pool) (k : ℕ) : Decidable (s.Unwritten k) := inferInstanceAs (Decidable (_ ∧ _))

instance (k : ℕ) (s : Pool) (a : Action) : Decidable (ClaimSpares k s a) :=
  match a with
  | .claim _ _ _ => inferInstanceAs (Decidable (_ → s.Unwritten k))
  | .publish _ | .spawn _ _ | .work _ | .signal _ | .crash _ | .wait _ =>
    inferInstanceAs (Decidable True)

variable {store₀ : TickStore} {s s' : Pool} {a : Action} {k : ℕ}

theorem unwritten_iff : s.Unwritten k ↔
    s.timesWritten k + tally (aboutToWrite k) s.processes = 0 := by
  rw [Unwritten, Nat.add_eq_zero_iff, tally_eq_zero_iff, timesWritten, List.count_eq_zero]
  simp only [aboutToWrite, List.count_eq_zero]

theorem once_initial : Once (initial store₀) k := ⟨by simp [timesWritten, initial, tally],
  fun _ ↦ by simp [timesWritten, initial, tally]⟩

section

variable {i : ℕ} {p p' : Process}

/-- A process moves, and no write of the entry comes nearer that was not due before. -/
theorem Once.move (h : Once s k) (hp : s.processes[i]? = some p)
    (hset : s'.processes = s.processes.set i p')
    (hle : s'.timesWritten k + aboutToWrite k p' ≤ s.timesWritten k + aboutToWrite k p)
    (hcursor : s.stream.cursor ≤ s'.stream.cursor) : Once s' k := by
  have htally := tally_set (aboutToWrite k) hp p'
  rw [← hset] at htally
  refine ⟨?_, fun hk ↦ ?_⟩
  · have := h.le_one
    omega
  · have := h.undelivered (hcursor.trans hk)
    omega

/-- A process is handed an entry that was not written and nobody is about to write. -/
theorem Once.hand (h : s.Unwritten k) (hp : s.processes[i]? = some p)
    (hset : s'.processes = s.processes.set i p') (hwritten : s'.timesWritten k = s.timesWritten k)
    (hone : aboutToWrite k p' ≤ 1) (hcursor : k < s'.stream.cursor) : Once s' k := by
  have htally := tally_set (aboutToWrite k) hp p'
  rw [← hset] at htally
  have hbefore := unwritten_iff.mp h
  refine ⟨?_, fun hk ↦ absurd hcursor (not_lt.mpr hk)⟩
  omega

end

theorem timesWritten_writeBatch (i : ℕ) (p : Process) (batch : List ConsumedMessage) :
    timesWritten (s.writeBatch i p batch) k
      = s.timesWritten k + (batch.map ConsumedMessage.messageId).count k := by
  show (ids (_ ++ _)).count k = _
  rw [ids_append, ids_map, List.count_append]
  rfl

/-- A step keeps `Once`, unless it is a claim that does not spare the entry. -/
theorem once_step (hs : Sound store₀ s) (he : Effect s a s') (hspare : ClaimSpares k s a)
    (h : Once s k) : Once s' k := by
  have hcursor := cursor_le_step he
  cases he with
  | publish => exact ⟨h.le_one, h.undelivered⟩
  | wait => exact ⟨h.le_one, h.undelivered⟩
  | spawn consumerName role =>
    have htally : tally (aboutToWrite k) (s.processes ++ [({ consumerName, role } : Process)])
        = tally (aboutToWrite k) s.processes := by
      rw [tally_append, tally_singleton]
      rfl
    exact ⟨htally.symm ▸ h.le_one, fun hk ↦ htally.symm ▸ h.undelivered hk⟩
  | quiet a i p p' stream hp _ _ _ hwrite =>
    refine h.move hp rfl (Nat.add_le_add_left ?_ _) hcursor
    rw [aboutToWrite, hwrite, aboutToWrite]
  | crash i p hp => exact h.move hp rfl (Nat.add_le_add_left (Nat.zero_le _) _) hcursor
  | read i p p' args stream messages hp _ _ _ hread _ _ hwrite =>
    have hcount : aboutToWrite k p' ≤ (messages.map ConsumedMessage.messageId).count k := by
      rw [aboutToWrite, hwrite]
      exact ((limitBatch_sublist _ _ _).map _).count_le k
    by_cases hk : k ∈ messages.map ConsumedMessage.messageId
    · -- the entry is new, so nobody had it before
      have hnew := (hs.mem_read hread).mp hk
      exact .hand (unwritten_iff.mpr (h.undelivered hnew.1)) hp rfl rfl
        (hcount.trans (List.nodup_iff_count_le_one.mp (hs.nodup_read hread) k)) hnew.2
    · rw [List.count_eq_zero.mpr hk] at hcount
      exact h.move hp rfl (Nat.add_le_add_left (hcount.trans (Nat.zero_le _)) _) hcursor
  | claim i p p' minIdleMs count stream messages hp _ hclaim _ _ hwrite =>
    obtain ⟨-, hsame, -, -, hids, -⟩ := StreamConsumer.claimStale_eq_ok hclaim
    have hcount : aboutToWrite k p'
        = (s.stream.stale minIdleMs.toNat count.toNat s.now).1.count k := by
      rw [aboutToWrite, hwrite, hids hs.wellFormed]
    have hsub := s.stream.stale_sublist_pelIds minIdleMs.toNat count.toNat s.now
    by_cases hk : k ∈ (s.stream.stale minIdleMs.toNat count.toNat s.now).1
    · refine .hand (hspare hk) hp rfl rfl ?_ ?_
      · rw [hcount]
        exact List.nodup_iff_count_le_one.mp (hsub.nodup s.stream.pelIds_nodup) k
      · exact (GroupStream.lt_cursor_of_mem_pelIds (hsub.subset hk)).trans_le hsame.ge
    · rw [List.count_eq_zero.mpr hk] at hcount
      exact h.move hp rfl (Nat.add_le_add_left (hcount.le.trans (Nat.zero_le _)) _) hcursor
  | write i p batch hp hphase =>
    refine h.move hp rfl (Nat.le_of_eq ?_) hcursor
    rw [timesWritten_writeBatch, aboutToWrite, aboutToWrite, hphase]
    rfl
  | ack i p batch hp hphase =>
    refine h.move hp rfl (Nat.add_le_add_left ?_ _) hcursor
    rw [aboutToWrite]
    dsimp only
    split
    · exact Nat.zero_le _
    · exact Nat.zero_le _

/-- Along a run whose claims all spare the entry, it is written at most once. -/
theorem once_of_run {as : List Action} (hrun : run step (initial store₀) as = some s)
    (hspare : Along step (ClaimSpares k) (initial store₀) as) : Once s k :=
  (Along.induction (I := fun s ↦ Sound store₀ s ∧ Once s k)
    (fun _ _ _ hI hP h ↦ ⟨sound_step hI.1 (effect_of_step h),
      once_step hI.1 (effect_of_step h) hP hI.2⟩)
    ⟨sound_initial store₀, once_initial⟩ hspare hrun).2

/-! ## Nobody claims -/

theorem claimSpares_of_no_claim {as : List Action} (hclaim : ∀ a ∈ as, a.isClaim = false) :
    Along step (ClaimSpares k) s as := by
  refine Along.mono ?_ (Along.of_forall (A := fun a ↦ a.isClaim = false) hclaim)
  intro s a ha
  cases a with
  | claim => cases ha
  | _ => trivial

theorem claimed_eq_nil_of_run {as : List Action} (hrun : run step (initial store₀) as = some s)
    (hclaim : ∀ a ∈ as, a.isClaim = false) : s.history.claimed = [] := by
  refine Along.induction (I := fun s ↦ s.history.claimed = []) (fun s a s' hI hP h ↦ ?_) rfl
    (Along.of_forall (A := fun a ↦ a.isClaim = false) hclaim) hrun
  cases effect_of_step h with
  | claim => cases hP
  | _ => exact hI

/-- Entry `k` is in one of three places: not delivered, pending under one consumer, or
acknowledged. -/
def OnePlace (s : Pool) (k : ℕ) : Prop :=
  (s.stream.cursor ≤ k ∧ k ∉ s.stream.pelIds ∧ k ∉ s.history.acked) ∨
    (k < s.stream.cursor ∧ (∃! r, r ∈ s.stream.pel ∧ r.id = k) ∧ k ∉ s.history.acked) ∨
    (k < s.stream.cursor ∧ k ∉ s.stream.pelIds ∧ k ∈ s.history.acked)

theorem existsUnique_pending (h : k ∈ s.stream.pelIds) : ∃! r, r ∈ s.stream.pel ∧ r.id = k := by
  obtain ⟨r, hr, hrk⟩ := List.mem_map.mp h
  refine ⟨r, ⟨hr, hrk⟩, fun q hq ↦ ?_⟩
  exact List.inj_on_of_nodup_map s.stream.pelIds_nodup hq.1 hr (hq.2.trans hrk.symm)

theorem onePlace_of_sound (hs : Sound store₀ s) (k : ℕ) : OnePlace s k := by
  rcases lt_or_ge k s.stream.cursor with hlt | hge
  · by_cases hpel : k ∈ s.stream.pelIds
    · exact Or.inr (Or.inl ⟨hlt, existsUnique_pending hpel, fun hack ↦ (hs.acked k hack).2 hpel⟩)
    · exact Or.inr (Or.inr ⟨hlt, hpel, (hs.pending k hlt).resolve_left hpel⟩)
  · refine Or.inl ⟨hge, fun h ↦ ?_, fun h ↦ ?_⟩
    · exact absurd (GroupStream.lt_cursor_of_mem_pelIds h) (not_lt.mpr hge)
    · obtain ⟨w, hw, rfl⟩ := List.mem_map.mp (hs.acked k h).1
      exact absurd (hs.handed_lt (hs.written w hw)) (not_lt.mpr hge)

/-- A message whose id occurs once is all there is under this id. -/
theorem filter_eq_singleton {handled : List Handled} {h : Handled} (hh : h ∈ handled)
    (hcount : (ids handled).count h.1.messageId ≤ 1) :
    handled.filter (fun w ↦ w.1.messageId = h.1.messageId) = [h] := by
  have hmem : h ∈ handled.filter fun w ↦ w.1.messageId = h.1.messageId := by simpa using hh
  have hlength : (handled.filter fun w ↦ w.1.messageId = h.1.messageId).length ≤ 1 := by
    rw [← List.countP_eq_length_filter]
    refine le_of_eq_of_le ?_ hcount
    rw [ids, List.count, List.countP_map]
    rfl
  obtain ⟨w, hw⟩ := List.length_eq_one_iff.mp
    (le_antisymm hlength (List.length_pos_of_mem hmem))
  rw [hw] at hmem ⊢
  rw [List.mem_singleton.mp hmem]

/-- **The pool hands every entry to one worker and writes it once.**  Whatever the schedule and
wherever processes crash, as long as nobody claims: an entry is in one place, its row is in the
store at most once, and once it is acknowledged the row is there, under the name of the consumer it
was delivered to. -/
theorem each_entry_handled_once (store₀ : TickStore) (s : Pool) (as : List Action)
    (hrun : run step (initial store₀) as = some s) (hclaim : ∀ a ∈ as, a.isClaim = false) :
    s.store = store₀ ++ s.history.written.map rowOf ∧
      ∀ k < s.stream.entries.length,
        OnePlace s k ∧ s.timesWritten k ≤ 1 ∧
          (k ∈ s.history.acked →
            ∃ tick consumerName,
              s.stream.entries[k]? = some ⟨some tick⟩ ∧
                s.history.delivered.filter (fun h ↦ h.1.messageId = k)
                  = [(⟨k, tick⟩, consumerName)] ∧
                s.history.written.filter (fun h ↦ h.1.messageId = k)
                  = [(⟨k, tick⟩, consumerName)]) := by
  have hs := sound_of_run hrun
  have hnone := claimed_eq_nil_of_run hrun hclaim
  have honce : ∀ k, s.timesWritten k ≤ 1 := fun k ↦
    (Nat.le_add_right _ _).trans (once_of_run hrun (claimSpares_of_no_claim hclaim)).le_one
  refine ⟨hs.store, fun k _ ↦ ⟨onePlace_of_sound hs k, honce k, fun hk ↦ ?_⟩⟩
  obtain ⟨h, hwritten, rfl⟩ := List.mem_map.mp (hs.acked k hk).1
  have hdelivered : h ∈ s.history.delivered := by simpa [hnone] using hs.written h hwritten
  refine ⟨h.1.tick, h.2, hs.genuine h (List.mem_append_left _ hdelivered),
    filter_eq_singleton hdelivered ?_, filter_eq_singleton hwritten (honce _)⟩
  rw [hs.delivered]
  exact List.nodup_iff_count_le_one.mp List.nodup_range _

/-- Two workers read one entry each; one crashes before it writes, the other goes on. -/
def crashedRun : List Action :=
  [.publish (btcTick 1 0), .publish (btcTick 2 0)]
    ++ runWorkerPool 2 { readBatchSize := 1 }
    ++ [.work 0, .work 1, .work 0, .work 1, .crash 1, .work 0, .work 0]

/-- The state this leaves. -/
def crashedPool : Pool := (run step (initial []) crashedRun).getD (initial [])

/-- The first entry was acknowledged and its one row is in the store; the second is pending. -/
theorem each_entry_handled_once_crashedPool :
    crashedPool.history.acked = [0] ∧ crashedPool.stream.pelIds = [1] ∧
      (OnePlace crashedPool 0 ∧ crashedPool.timesWritten 0 ≤ 1) ∧
      OnePlace crashedPool 1 ∧ crashedPool.timesWritten 1 ≤ 1 := by
  have h := (each_entry_handled_once [] crashedPool crashedRun
    (by decide +kernel) (by decide)).2
  exact ⟨by decide +kernel, by decide +kernel,
    ⟨(h 0 (by decide +kernel)).1, (h 0 (by decide +kernel)).2.1⟩,
    (h 1 (by decide +kernel)).1, (h 1 (by decide +kernel)).2.1⟩

end Pool

end PostTrade
