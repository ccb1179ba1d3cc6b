import PostTrade.Models
import PostTrade.Lib.ConsumerGroup

/-!
# The tick stream

`queue/redis_stream.py`: the publisher and the consumer of the stream of ticks, over the consumer
group of `ConsumerGroup`.

An entry of the stream holds a tick in its `data` field, as JSON.  Pydantic reads back the tick it
dumped, so the field is the tick itself; an entry of another publisher may lack it, and the parser
passes over such an entry.
-/

set_option autoImplicit false

namespace PostTrade

open ConsumerGroup

/-- An entry of the stream. -/
structure Entry where
  data : Option Tick
  deriving DecidableEq

structure ConsumedMessage where
  messageId : ℕ
  tick : Tick
  deriving DecidableEq

/-- The stream, with the group of the workers. -/
abbrev TickStream := GroupStream Entry Str

/-- The errors the client raises: an argument it refuses, or a group that does not exist. -/
inductive RedisError
  | dataError
  | noGroup
  deriving DecidableEq, Repr

/-- `_parse_entries`: an entry without the field is skipped. -/
def parseEntries (entries : List (Entry × ℕ)) : List ConsumedMessage :=
  entries.filterMap fun e ↦ e.1.data.map fun tick ↦ { messageId := e.2, tick }

theorem mem_parseEntries {entries : List (Entry × ℕ)} {m : ConsumedMessage} :
    m ∈ parseEntries entries ↔ (⟨some m.tick⟩, m.messageId) ∈ entries := by
  simp only [parseEntries, List.mem_filterMap, Option.map_eq_some_iff]
  constructor
  · rintro ⟨⟨⟨data⟩, id⟩, he, tick, rfl, rfl⟩
    exact he
  · intro he
    exact ⟨_, he, m.tick, rfl, rfl⟩

/-- Where every entry has its field, every entry becomes a message. -/
theorem map_messageId_parseEntries {entries : List (Entry × ℕ)}
    (h : ∀ e ∈ entries, e.1.data ≠ none) :
    (parseEntries entries).map ConsumedMessage.messageId = entries.map Prod.snd := by
  induction entries with
  | nil => rfl
  | cons e rest ih =>
    obtain ⟨tick, htick⟩ := Option.ne_none_iff_exists'.mp (h e List.mem_cons_self)
    rw [parseEntries, List.filterMap_cons_some (b := { messageId := e.2, tick }) (by simp [htick]),
      List.map_cons, List.map_cons]
    exact congrArg _ (ih fun e he ↦ h e (List.mem_cons_of_mem _ he))

/-- The messages are entries of the batch, in its order. -/
theorem sublist_map_messageId (entries : List (Entry × ℕ)) :
    ((parseEntries entries).map ConsumedMessage.messageId).Sublist (entries.map Prod.snd) := by
  induction entries with
  | nil => exact List.Sublist.slnil
  | cons e rest ih =>
    obtain ⟨⟨data⟩, id⟩ := e
    rcases data with _ | tick
    · exact ih.cons id
    · exact ih.cons_cons id

namespace TickStream

/-- Every entry has its `data` field, as the entries of `StreamPublisher` have. -/
def WellFormed (stream : TickStream) : Prop := ∀ e ∈ stream.entries, e.data ≠ none

end TickStream

/-! ## `StreamPublisher` -/

namespace StreamPublisher

/-- `publish`: the stream with the tick, and the id of its entry. -/
def publish (stream : TickStream) (tick : Tick) : TickStream × ℕ := stream.xadd ⟨some tick⟩

end StreamPublisher

/-! ## `StreamConsumer` -/

namespace StreamConsumer

variable (stream : TickStream) (consumerName : Str)

/-- The constructor makes sure that the group exists. -/
def create : TickStream := stream.xgroupCreate

/-- `read`.  The client refuses a count below one. -/
def read (count : ℤ) (now : ℕ) : Except RedisError (TickStream × List ConsumedMessage) :=
  if count < 1 then .error .dataError
  else
    match stream.xreadgroup consumerName count.toNat now with
    | none => .error .noGroup
    | some (stream', entries) => .ok (stream', parseEntries entries)

/-- `claim_stale`: one call of `XAUTOCLAIM` from the start of the PEL; the id it would go on from
is dropped.  A negative idle time is refused, and so is a count below one. -/
def claimStale (minIdleMs count : ℤ) (now : ℕ) :
    Except RedisError (TickStream × List ConsumedMessage) :=
  if minIdleMs < 0 ∨ count < 1 then .error .dataError
  else
    match stream.xautoclaim consumerName minIdleMs.toNat count.toNat now with
    | none => .error .noGroup
    | some (stream', _nextCursor, entries) => .ok (stream', parseEntries entries)

/-- `ack_batch`. -/
def ackBatch (messageIds : List ℕ) : TickStream :=
  if messageIds = [] then stream else stream.xack messageIds

/-- `pending_count`. -/
def pendingCount : ℕ := stream.xpending

@[simp] theorem ackBatch_entries (ids : List ℕ) :
    (ackBatch stream ids).entries = stream.entries := by
  rw [ackBatch]
  split
  · rfl
  · rfl

@[simp] theorem ackBatch_created (ids : List ℕ) :
    (ackBatch stream ids).created = stream.created := by
  rw [ackBatch]
  split
  · rfl
  · rfl

@[simp] theorem ackBatch_cursor (ids : List ℕ) : (ackBatch stream ids).cursor = stream.cursor := by
  rw [ackBatch]
  split
  · rfl
  · rfl

theorem mem_pel_ackBatch (ids : List ℕ) {r : Pending Str} :
    r ∈ (ackBatch stream ids).pel ↔ r ∈ stream.pel ∧ r.id ∉ ids := by
  rw [ackBatch]
  split
  · rename_i h
    simp [h]
  · exact GroupStream.mem_pel_xack

/-- Acknowledging a pending entry makes the PEL shorter. -/
theorem length_pel_ackBatch_lt {stream : TickStream} {ids : List ℕ} {r : Pending Str}
    (hr : r ∈ stream.pel) (hid : r.id ∈ ids) :
    (ackBatch stream ids).pel.length < stream.pel.length := by
  rw [ackBatch, if_neg (List.ne_nil_of_mem hid)]
  exact List.length_filter_lt_length_iff_exists.mpr ⟨r, hr, by simpa using hid⟩

theorem mem_pelIds_ackBatch (ids : List ℕ) {k : ℕ} :
    k ∈ (ackBatch stream ids).pelIds ↔ k ∈ stream.pelIds ∧ k ∉ ids := by
  rw [ackBatch]
  split
  · rename_i h
    simp [h]
  · exact GroupStream.mem_pelIds_xack

/-- Where the group exists, a read of at least one succeeds. -/
theorem exists_read_of_created {count : ℤ} (hcreated : stream.created = true) (hcount : 1 ≤ count)
    (now : ℕ) : ∃ r, read stream consumerName count now = .ok r := by
  obtain ⟨⟨stream', entries⟩, hread⟩ :=
    GroupStream.exists_xreadgroup_of_created hcreated consumerName count.toNat now
  rw [read, if_neg (by omega), hread]
  exact ⟨_, rfl⟩

variable {stream consumerName}

/-- What a read does. -/
theorem read_eq_ok {count : ℤ} {now : ℕ} {stream' : TickStream} {messages : List ConsumedMessage}
    (h : read stream consumerName count now = .ok (stream', messages)) :
    1 ≤ count ∧ messages = parseEntries (stream.nextBatch count.toNat) ∧
      stream'.entries = stream.entries ∧
      stream'.cursor = stream.cursor + (stream.nextBatch count.toNat).length ∧
      stream'.pel = stream.pel ++
        GroupStream.deliver consumerName now (stream.nextBatch count.toNat) := by
  rw [read] at h
  split at h
  · cases h
  · rename_i hcount
    split at h
    · cases h
    · rename_i entries hread
      cases h
      obtain ⟨-, rfl, -, hentries, hcursor, hpel⟩ := GroupStream.xreadgroup_eq_some hread
      exact ⟨by omega, rfl, hentries, hcursor, hpel⟩

theorem created_read {count : ℤ} {now : ℕ} {stream' : TickStream} {messages : List ConsumedMessage}
    (h : read stream consumerName count now = .ok (stream', messages)) :
    stream'.created = true := by
  rw [read] at h
  split at h
  · cases h
  · split at h
    · cases h
    · rename_i hread
      cases h
      exact (GroupStream.xreadgroup_eq_some hread).2.2.1

/-- The ids a read delivers join the PEL. -/
theorem mem_pelIds_read {count : ℤ} {now : ℕ} {stream' : TickStream}
    {messages : List ConsumedMessage}
    (h : read stream consumerName count now = .ok (stream', messages)) {k : ℕ} :
    k ∈ stream'.pelIds ↔ k ∈ stream.pelIds ∨ stream.cursor ≤ k ∧ k < stream'.cursor := by
  obtain ⟨-, -, -, hcursor, hpel⟩ := read_eq_ok h
  rw [GroupStream.pelIds, hpel, List.map_append, GroupStream.map_id_deliver, List.mem_append,
    GroupStream.mem_map_snd_nextBatch, hcursor, GroupStream.pelIds]

/-- What a claim does. -/
theorem claimStale_eq_ok {minIdleMs count : ℤ} {now : ℕ} {stream' : TickStream}
    {messages : List ConsumedMessage}
    (h : claimStale stream consumerName minIdleMs count now = .ok (stream', messages)) :
    stream'.entries = stream.entries ∧ stream'.cursor = stream.cursor ∧
      stream'.pelIds = stream.pelIds ∧
      stream'.pel = stream.pel.map
        (GroupStream.reown consumerName now (stream.stale minIdleMs.toNat count.toNat now).1) ∧
      (stream.WellFormed → messages.map ConsumedMessage.messageId
        = (stream.stale minIdleMs.toNat count.toNat now).1) ∧
      ∀ m ∈ messages, stream.entries[m.messageId]? = some ⟨some m.tick⟩ := by
  rw [claimStale] at h
  split at h
  · cases h
  · split at h
    · cases h
    · rename_i next entries hclaim
      cases h
      obtain ⟨-, -, hentries, hcursor, hpel, -, -⟩ := GroupStream.xautoclaim_eq_some hclaim
      refine ⟨hentries, hcursor, GroupStream.pelIds_xautoclaim hclaim, hpel, fun hwell ↦ ?_,
        fun m hm ↦ ?_⟩
      · rw [map_messageId_parseEntries, GroupStream.map_snd_xautoclaim hclaim]
        intro e he
        exact hwell _ (List.mem_of_getElem? (GroupStream.getElem?_of_mem_xautoclaim hclaim he))
      · exact GroupStream.getElem?_of_mem_xautoclaim hclaim (mem_parseEntries.mp hm)

/-- Which messages a claim returns: those of the entries taken that have their field. -/
theorem mem_claimStale {minIdleMs count : ℤ} {now : ℕ} {stream' : TickStream}
    {messages : List ConsumedMessage}
    (h : claimStale stream consumerName minIdleMs count now = .ok (stream', messages))
    {m : ConsumedMessage} :
    m ∈ messages ↔ m.messageId ∈ (stream.stale minIdleMs.toNat count.toNat now).1 ∧
      stream.entries[m.messageId]? = some ⟨some m.tick⟩ := by
  rw [claimStale] at h
  split at h
  · cases h
  · split at h
    · cases h
    · rename_i next entries hclaim
      cases h
      obtain ⟨-, -, -, -, -, -, rfl⟩ := GroupStream.xautoclaim_eq_some hclaim
      simp only [mem_parseEntries, List.mem_filterMap, Option.map_eq_some_iff, Prod.mk.injEq]
      constructor
      · rintro ⟨id, hid, entry, hentry, rfl, rfl⟩
        exact ⟨hid, hentry⟩
      · rintro ⟨hid, hentry⟩
        exact ⟨_, hid, _, hentry, rfl, rfl⟩

variable (consumerName) in
/-- Where the group exists, a claim with proper arguments succeeds. -/
theorem exists_claimStale_of_created {minIdleMs count : ℤ} (hcreated : stream.created = true)
    (hidle : 0 ≤ minIdleMs) (hcount : 1 ≤ count) (now : ℕ) :
    ∃ stream' messages,
      claimStale stream consumerName minIdleMs count now = .ok (stream', messages) := by
  obtain ⟨⟨stream', next, entries⟩, hclaim⟩ := GroupStream.exists_xautoclaim_of_created hcreated
    consumerName minIdleMs.toNat count.toNat now
  rw [claimStale, if_neg (by omega), hclaim]
  exact ⟨_, _, rfl⟩

theorem created_claimStale {minIdleMs count : ℤ} {now : ℕ} {stream' : TickStream}
    {messages : List ConsumedMessage}
    (h : claimStale stream consumerName minIdleMs count now = .ok (stream', messages)) :
    stream'.created = true := by
  rw [claimStale] at h
  split at h
  · cases h
  · split at h
    · cases h
    · rename_i hclaim
      cases h
      exact (GroupStream.xautoclaim_eq_some hclaim).2.1

end StreamConsumer

end PostTrade
