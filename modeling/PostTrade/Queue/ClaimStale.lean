import PostTrade.Queue.RedisStream
import PostTrade.Lib.Machine

/-!
# When claiming stale entries stops

`claim_stale` makes one call of `XAUTOCLAIM` from the start of the pending entries list and drops
the id that call would go on from.  One call examines ten records for each entry asked for and takes
as many idle ones as are asked for, and entries without their field are left out of the answer.  So
an empty answer need not mean that nothing is stale.

`claimStale_complete_iff` says exactly when it does: when, if any stale entry has its field, one of
those within reach of the call does.  Repeating claim and acknowledgement until the answer is empty
then stops within as many rounds as there are pending entries, and recovers every stale message
exactly when that holds of the last call.
-/

set_option autoImplicit false

namespace PostTrade

open ConsumerGroup

namespace StreamConsumer

section

variable (stream : TickStream) (consumerName : Str) (minIdleMs count : ℤ) (now : ℕ)

/-- The entry of the record has its `data` field. -/
def HasData (p : Pending Str) : Prop := ∃ tick, stream.entries[p.id]? = some ⟨some tick⟩

/-- The record has been idle for at least the given time. -/
def IsStale (p : Pending Str) : Prop := minIdleMs.toNat ≤ now - p.deliveredAt

instance (p : Pending Str) : Decidable (IsStale minIdleMs now p) :=
  inferInstanceAs (Decidable (_ ≤ _))

/-- A claim answers with nothing. -/
def ReportsNothing : Prop :=
  ∃ stream', claimStale stream consumerName minIdleMs count now = .ok (stream', [])

/-- No pending entry that has its field is stale. -/
def NothingStale : Prop := ∀ p ∈ stream.pel, IsStale minIdleMs now p → ¬ HasData stream p

/-- If a stale entry has its field, one that a single call takes does. -/
def InReach : Prop :=
  (∃ p ∈ stream.pel, IsStale minIdleMs now p ∧ HasData stream p) →
    ∃ p ∈ stream.claimable minIdleMs.toNat count.toNat now, HasData stream p

/-- A claim returns the message with the given id. -/
def Returns (id : ℕ) : Prop :=
  ∃ stream' messages, claimStale stream consumerName minIdleMs count now = .ok (stream', messages) ∧
    id ∈ messages.map ConsumedMessage.messageId

/-- The stream after a round of recovery: what is claimed is processed and acknowledged. -/
def afterRound : TickStream :=
  match claimStale stream consumerName minIdleMs count now with
  | .error _ => stream
  | .ok (stream', messages) => ackBatch stream' (messages.map ConsumedMessage.messageId)

/-- The stream before each round, where round `k` runs at time `clock k`. -/
def beforeRound (clock : ℕ → ℕ) : ℕ → TickStream
  | 0 => stream
  | k + 1 => afterRound (beforeRound clock k) consumerName minIdleMs count (clock k)

end

variable {stream : TickStream} {consumerName : Str} {minIdleMs count : ℤ} {now : ℕ}

/-! ## One call -/

/-- The ids returned are those of the records within reach that have their field. -/
theorem mem_messageIds_iff {stream' : TickStream} {messages : List ConsumedMessage}
    (h : claimStale stream consumerName minIdleMs count now = .ok (stream', messages)) {id : ℕ} :
    id ∈ messages.map ConsumedMessage.messageId ↔
      ∃ p ∈ stream.claimable minIdleMs.toNat count.toNat now, HasData stream p ∧ p.id = id := by
  simp only [List.mem_map, mem_claimStale h, GroupStream.stale_fst_eq]
  constructor
  · rintro ⟨m, ⟨⟨p, hp, hid⟩, hentry⟩, rfl⟩
    exact ⟨p, hp, ⟨m.tick, hid ▸ hentry⟩, hid⟩
  · rintro ⟨p, hp, ⟨tick, hentry⟩, rfl⟩
    exact ⟨{ messageId := p.id, tick }, ⟨⟨p, hp, rfl⟩, hentry⟩, rfl⟩

/-- A claim that succeeds answers with nothing when nothing within reach has its field. -/
theorem reportsNothing_iff (hcreated : stream.created = true) (hidle : 0 ≤ minIdleMs)
    (hcount : 1 ≤ count) :
    ReportsNothing stream consumerName minIdleMs count now ↔
      ∀ p ∈ stream.claimable minIdleMs.toNat count.toNat now, ¬ HasData stream p := by
  obtain ⟨stream', messages, h⟩ :=
    exists_claimStale_of_created consumerName hcreated hidle hcount now
  have hnil : messages = [] ↔
      ∀ p ∈ stream.claimable minIdleMs.toNat count.toNat now, ¬ HasData stream p := by
    rw [← List.map_eq_nil_iff (f := ConsumedMessage.messageId), List.eq_nil_iff_forall_not_mem]
    simp only [mem_messageIds_iff h]
    grind
  rw [← hnil, ReportsNothing, h]
  simp

variable (consumerName) in
/-- **When an empty answer means that nothing is stale**: exactly when a stale message, if there is
one, is in reach. -/
theorem nothingStale_of_reportsNothing_iff (hcreated : stream.created = true)
    (hidle : 0 ≤ minIdleMs) (hcount : 1 ≤ count) :
    (ReportsNothing stream consumerName minIdleMs count now → NothingStale stream minIdleMs now) ↔
      InReach stream minIdleMs count now := by
  rw [reportsNothing_iff hcreated hidle hcount]
  constructor
  · rintro h ⟨p, hp, hstale, hdata⟩
    by_contra hnone
    exact h (fun q hq hqdata ↦ hnone ⟨q, hq, hqdata⟩) p hp hstale hdata
  · intro h hnone p hp hstale hdata
    obtain ⟨q, hq, hqdata⟩ := h ⟨p, hp, hstale, hdata⟩
    exact hnone q hq hqdata

/-- A call that asks for as many entries as are pending has them all in reach. -/
theorem inReach_of_length_le (h : stream.pel.length ≤ count.toNat) :
    InReach stream minIdleMs count now := by
  rintro ⟨p, hp, hstale, hdata⟩
  refine ⟨p, ?_, hdata⟩
  have hlength := List.length_filter_le
    (fun q ↦ decide (minIdleMs.toNat ≤ now - q.deliveredAt)) stream.pel
  have hexamined : stream.pel.length ≤ 10 * count.toNat := by omega
  rw [GroupStream.claimable, List.take_of_length_le hexamined,
    List.take_of_length_le (hlength.trans h)]
  exact List.mem_filter.mpr ⟨hp, decide_eq_true hstale⟩

/-! ## Round after round -/

variable (consumerName now) in
/-- What a round leaves: the entries, and of the pending messages those that are not returned. -/
theorem afterRound_spec (hcreated : stream.created = true) (hidle : 0 ≤ minIdleMs)
    (hcount : 1 ≤ count) :
    let after := afterRound stream consumerName minIdleMs count now
    after.created = true ∧ after.entries = stream.entries ∧
      (∀ p, HasData stream p → (p ∈ after.pel ↔
        p ∈ stream.pel ∧ ¬ Returns stream consumerName minIdleMs count now p.id)) ∧
      (¬ ReportsNothing stream consumerName minIdleMs count now →
        after.pel.length < stream.pel.length) := by
  obtain ⟨stream', messages, h⟩ :=
    exists_claimStale_of_created consumerName hcreated hidle hcount now
  have hafter : afterRound stream consumerName minIdleMs count now =
      ackBatch stream' (messages.map ConsumedMessage.messageId) := by
    rw [afterRound, h]
  obtain ⟨hentries, -, -, hpel, -, -⟩ := claimStale_eq_ok h
  have hreturns : ∀ id, Returns stream consumerName minIdleMs count now id ↔
      id ∈ messages.map ConsumedMessage.messageId := by
    intro id
    rw [Returns, h]
    simp
  rw [hafter]
  refine ⟨by simp [created_claimStale h], by simp [hentries], fun p hdata ↦ ?_, fun hsome ↦ ?_⟩
  · rw [mem_pel_ackBatch, hreturns, hpel]
    refine and_congr_left fun hkept ↦ ?_
    -- a message that is not returned is not claimed either, so its record stays as it is
    have hnot : ∀ q : Pending Str, q.id = p.id → q ∈ stream.pel →
        q.id ∉ (stream.stale minIdleMs.toNat count.toNat now).1 := by
      intro q hqid hq hmem
      rw [GroupStream.stale_fst_eq] at hmem
      obtain ⟨q', hq', hid⟩ := List.mem_map.mp hmem
      refine hkept ((mem_messageIds_iff h).mpr ⟨q', hq', ?_, hid.trans hqid⟩)
      rwa [HasData, hid, hqid]
    constructor
    · intro hp
      obtain ⟨q, hq, rfl⟩ := List.mem_map.mp hp
      rw [GroupStream.reown_id] at hnot
      rwa [GroupStream.reown_of_notMem (hnot q rfl hq)]
    · intro hp
      exact List.mem_map.mpr ⟨p, hp, GroupStream.reown_of_notMem (hnot p rfl hp) _ _⟩
  · obtain ⟨m, hm⟩ := List.exists_mem_of_ne_nil messages fun hnil ↦ hsome ⟨stream', hnil ▸ h⟩
    have hid : m.messageId ∈ messages.map ConsumedMessage.messageId := List.mem_map_of_mem hm
    obtain ⟨p, hp, -, hpid⟩ := (mem_messageIds_iff h).mp hid
    have hclaimed := List.mem_map_of_mem
      (f := GroupStream.reown consumerName now (stream.stale minIdleMs.toNat count.toNat now).1)
      (GroupStream.mem_pel_of_mem_claimable hp).1
    rw [← hpel] at hclaimed
    refine (length_pel_ackBatch_lt hclaimed ?_).trans_eq (by rw [hpel, List.length_map])
    rwa [GroupStream.reown_id, hpid]

section Rounds

variable (consumerName) (hcreated : stream.created = true) (hidle : 0 ≤ minIdleMs)
  (hcount : 1 ≤ count) (clock : ℕ → ℕ)

include hcreated hidle hcount

/-- What all rounds so far leave. -/
theorem beforeRound_spec (k : ℕ) :
    let before := beforeRound stream consumerName minIdleMs count clock
    (before k).created = true ∧ (before k).entries = stream.entries ∧
      ∀ p, HasData stream p → (p ∈ (before k).pel ↔ p ∈ stream.pel ∧
        ∀ j < k, ¬ Returns (before j) consumerName minIdleMs count (clock j) p.id) := by
  intro before
  induction k with
  | zero => exact ⟨hcreated, rfl, fun p _ ↦ by simp [before, beforeRound]⟩
  | succ k ih =>
    obtain ⟨hk, hentries, hpel⟩ := ih
    obtain ⟨hcreated', hentries', hpel', -⟩ :=
      afterRound_spec consumerName (clock k) hk hidle hcount
    refine ⟨hcreated', hentries'.trans hentries, fun p hdata ↦ ?_⟩
    have hdata' : HasData (before k) p := by rwa [HasData, hentries]
    calc p ∈ (before (k + 1)).pel
        ↔ p ∈ (before k).pel ∧
            ¬ Returns (before k) consumerName minIdleMs count (clock k) p.id := hpel' p hdata'
      _ ↔ p ∈ stream.pel ∧ ∀ j < k + 1,
            ¬ Returns (before j) consumerName minIdleMs count (clock j) p.id := by
          rw [hpel p hdata, and_assoc, Nat.forall_lt_succ_right]

/-- Recovery comes to a first round whose claim answers with nothing. -/
theorem exists_last_round :
    let before := beforeRound stream consumerName minIdleMs count clock
    ∃ k ≤ stream.pel.length, ReportsNothing (before k) consumerName minIdleMs count (clock k) ∧
      ∀ j < k, ¬ ReportsNothing (before j) consumerName minIdleMs count (clock j) :=
  Machine.exists_first_stop (m := fun k ↦
    (beforeRound stream consumerName minIdleMs count clock k).pel.length) fun k hgo ↦
      (afterRound_spec consumerName (clock k)
        (beforeRound_spec consumerName hcreated hidle hcount clock k).1 hidle hcount).2.2.2 hgo

/-- The messages still pending are those that no round has returned. -/
theorem recovered_iff_nothingStale (k : ℕ) :
    let before := beforeRound stream consumerName minIdleMs count clock
    (∀ p ∈ stream.pel, IsStale minIdleMs (clock k) p → HasData stream p →
      ∃ j < k, Returns (before j) consumerName minIdleMs count (clock j) p.id) ↔
        NothingStale (before k) minIdleMs (clock k) := by
  intro before
  obtain ⟨-, hentries, hpel⟩ := beforeRound_spec consumerName hcreated hidle hcount clock k
  have hdata : ∀ p, HasData (before k) p ↔ HasData stream p := fun p ↦ by
    rw [HasData, hentries, HasData]
  simp only [NothingStale, hdata]
  constructor
  · intro hall p hp hstale hp'
    obtain ⟨hp, hnot⟩ := (hpel p hp').mp hp
    obtain ⟨j, hj, hreturns⟩ := hall p hp hstale hp'
    exact hnot j hj hreturns
  · intro hnone p hp hstale hp'
    by_contra hnot
    refine hnone p ((hpel p hp').mpr ⟨hp, fun j hj hreturns ↦ ?_⟩) hstale hp'
    exact hnot ⟨j, hj, hreturns⟩

end Rounds

/-- **When claiming stale entries stops.**  One call: an empty answer means that nothing is stale
exactly when a stale message, if there is one, is in reach.  Repeated calls: the answer is empty
after at most as many rounds as there are pending entries, and every message that is stale by then
was returned by one of them exactly when that holds of the last call. -/
theorem claimStale_complete_iff (consumerName : Str) (hcreated : stream.created = true)
    (hidle : 0 ≤ minIdleMs) (hcount : 1 ≤ count) :
    (∀ now, (ReportsNothing stream consumerName minIdleMs count now →
        NothingStale stream minIdleMs now) ↔ InReach stream minIdleMs count now) ∧
    ∀ clock : ℕ → ℕ,
      let before := beforeRound stream consumerName minIdleMs count clock
      ∃ k ≤ stream.pel.length,
        ReportsNothing (before k) consumerName minIdleMs count (clock k) ∧
        (∀ j < k, ¬ ReportsNothing (before j) consumerName minIdleMs count (clock j)) ∧
        ((∀ p ∈ stream.pel, IsStale minIdleMs (clock k) p → HasData stream p →
            ∃ j < k, Returns (before j) consumerName minIdleMs count (clock j) p.id) ↔
          InReach (before k) minIdleMs count (clock k)) := by
  refine ⟨fun now ↦ nothingStale_of_reportsNothing_iff consumerName hcreated hidle hcount,
    fun clock ↦ ?_⟩
  obtain ⟨k, hk, hlast, hfirst⟩ := exists_last_round consumerName hcreated hidle hcount clock
  have hcreated' := (beforeRound_spec consumerName hcreated hidle hcount clock k).1
  refine ⟨k, hk, hlast, hfirst, ?_⟩
  refine (recovered_iff_nothingStale consumerName hcreated hidle hcount clock k).trans ?_
  rw [← nothingStale_of_reportsNothing_iff consumerName hcreated' hidle hcount]
  exact ⟨fun h _ ↦ h, fun h ↦ h hlast⟩

/-! ### Ten fresh records ahead of a stale one -/

/-- Eleven entries are published to a stream, and a worker reads them all and dies. -/
def readStream (s : TickStream) : TickStream :=
  let published := (List.replicate 11 (btcTick 1 0)).foldl
    (fun s t ↦ (StreamPublisher.publish s t).1) (create s)
  match read published "worker-0".toList 11 0 with
  | .error _ => published
  | .ok (stream, _) => stream

/-- A minute later another worker has claimed ten of them and is at work on them. -/
def claimedStream (s : TickStream) : TickStream :=
  match claimStale (readStream s) "worker-1".toList 30000 10 60000 with
  | .error _ => readStream s
  | .ok (stream, _) => stream

/-- The record of the first entry, while the worker that read it holds it. -/
def firstRecord : Pending Str := { id := 0, consumer := "worker-0".toList, deliveredAt := 0 }

/-- The record of the last entry. -/
def lastRecord : Pending Str := { id := 10, consumer := "worker-0".toList, deliveredAt := 0 }

/-- The first claim finds something. -/
theorem claimStale_complete_readStream :
    ¬ ReportsNothing (readStream {}) "worker-1".toList 30000 10 60000 := by
  have hcreated : (readStream {}).created = true := by decide +kernel
  have hpending : firstRecord ∈ (readStream {}).pel := by decide +kernel
  have hclaimable : firstRecord ∈ (readStream {}).claimable 30000 10 60000 := by decide +kernel
  have hdata : HasData (readStream {}) firstRecord := ⟨btcTick 1 0, by decide +kernel⟩
  intro hnothing
  have hcomplete := (claimStale_complete_iff "worker-1".toList hcreated
    (by decide : (0 : ℤ) ≤ 30000) (by decide : (1 : ℤ) ≤ 10)).1 60000
  exact hcomplete.mpr (fun _ ↦ ⟨firstRecord, hclaimable, hdata⟩) hnothing firstRecord hpending
    (by decide) hdata

/-- A claim of one entry then examines the ten at work and answers with nothing, although the
eleventh has been idle for a minute. -/
theorem claimStale_misses_last_record :
    ReportsNothing (claimedStream {}) "worker-2".toList 30000 1 60001 ∧
      lastRecord ∈ (claimedStream {}).pel ∧ IsStale 30000 60001 lastRecord ∧
        HasData (claimedStream {}) lastRecord := by
  have hcreated : (claimedStream {}).created = true := by decide +kernel
  have hclaimable : (claimedStream {}).claimable 30000 1 60001 = [] := by decide +kernel
  have hpending : lastRecord ∈ (claimedStream {}).pel := by decide +kernel
  have hentry : (claimedStream {}).entries[10]? = some ⟨some (btcTick 1 0)⟩ := by decide +kernel
  refine ⟨(reportsNothing_iff hcreated (by decide) (by decide)).mpr ?_, hpending, by decide,
    btcTick 1 0, hentry⟩
  intro p hp
  exact absurd (hclaimable ▸ hp) List.not_mem_nil

end StreamConsumer

end PostTrade
