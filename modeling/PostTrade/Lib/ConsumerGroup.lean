import Mathlib

/-!
# A stream with a consumer group

The part of Redis Streams that hands entries out to the members of a group: an append-only stream,
the group's place in it, and its pending entries list (PEL), the entries delivered and not yet
acknowledged.  `α` is the type of the payloads and `ν` that of the names of consumers.

Ids in a stream only grow and nothing is trimmed, so the id of an entry is its place in the stream.
A clock in milliseconds decides which pending entries are idle.

A `GroupStream` carries the facts every command keeps: the PEL is sorted by id, holds delivered
entries only, and nothing is delivered before it is added.  The lemmas after each command say what
it does to the place of the group (`cursor`), to the ids in the PEL (`pelIds`) and to the entries.
-/

set_option autoImplicit false

namespace ConsumerGroup

variable {α ν : Type*}

/-- A record of the PEL: the entry, the consumer it was last delivered to, and when. -/
structure Pending (ν : Type*) where
  id : ℕ
  consumer : ν
  deliveredAt : ℕ
  deriving DecidableEq

/-- A stream and one group reading it.  Other groups of the stream do not matter to this one. -/
structure GroupStream (α ν : Type*) where
  entries : List α := []
  /-- Whether the group has been created. -/
  created : Bool := false
  /-- The number of entries the group has delivered so far. -/
  cursor : ℕ := 0
  pel : List (Pending ν) := []
  fresh : created = false → cursor = 0 ∧ pel = [] := by simp
  cursor_le : cursor ≤ entries.length := by simp
  sorted : (pel.map Pending.id).Pairwise (· < ·) := by simp
  below : ∀ p ∈ pel, p.id < cursor := by simp
  deriving DecidableEq

namespace GroupStream

variable (s : GroupStream α ν)

/-- The ids in the PEL. -/
def pelIds : List ℕ := s.pel.map Pending.id

theorem pelIds_nodup : s.pelIds.Nodup := s.sorted.imp fun h ↦ h.ne

theorem lt_cursor_of_mem_pelIds {s : GroupStream α ν} {k : ℕ} (h : k ∈ s.pelIds) :
    k < s.cursor := by
  obtain ⟨p, hp, rfl⟩ := List.mem_map.mp h
  exact s.below p hp

/-- The entries the group has not delivered yet, with their ids. -/
def undelivered : List (α × ℕ) := s.entries.zipIdx.drop s.cursor

theorem map_snd_undelivered :
    s.undelivered.map Prod.snd = List.range' s.cursor (s.entries.length - s.cursor) := by
  rw [undelivered, List.map_drop, List.zipIdx_map_snd, List.drop_range']
  simp

theorem getElem?_of_mem_undelivered {s : GroupStream α ν} {e : α × ℕ} (h : e ∈ s.undelivered) :
    s.entries[e.2]? = some e.1 :=
  List.mem_zipIdx_iff_getElem?.mp (List.mem_of_mem_drop h)

/-! ## `XADD` and `XGROUP CREATE` -/

/-- `XADD`: the stream with the new entry, and its id. -/
def xadd (a : α) : GroupStream α ν × ℕ :=
  ({ s with
      entries := s.entries ++ [a]
      cursor_le := s.cursor_le.trans (by simp) },
    s.entries.length)

/-- `XGROUP CREATE … 0 MKSTREAM`: a new group starts before the first entry.  Where the group
exists the command fails with `BUSYGROUP` and changes nothing. -/
def xgroupCreate : GroupStream α ν :=
  if s.created then s
  else
    { entries := s.entries
      created := true }

@[simp] theorem xgroupCreate_entries : s.xgroupCreate.entries = s.entries := by
  rw [xgroupCreate]
  split
  · rfl
  · rfl

@[simp] theorem xgroupCreate_created : s.xgroupCreate.created = true := by
  rw [xgroupCreate]
  split
  · assumption
  · rfl

@[simp] theorem xgroupCreate_cursor : s.xgroupCreate.cursor = s.cursor := by
  rw [xgroupCreate]
  split
  · rfl
  · rename_i h
    exact (s.fresh (by simpa using h)).1.symm

@[simp] theorem xgroupCreate_pel : s.xgroupCreate.pel = s.pel := by
  rw [xgroupCreate]
  split
  · rfl
  · rename_i h
    exact (s.fresh (by simpa using h)).2.symm

/-! ## `XREADGROUP` -/

/-- The entries the next read of at most `count` delivers. -/
def nextBatch (count : ℕ) : List (α × ℕ) := s.undelivered.take count

theorem map_snd_nextBatch (count : ℕ) :
    (s.nextBatch count).map Prod.snd = List.range' s.cursor (s.nextBatch count).length := by
  have hlength : (s.nextBatch count).length = min count (s.entries.length - s.cursor) := by
    rw [nextBatch, List.length_take, undelivered, List.length_drop, List.length_zipIdx]
  rw [hlength, nextBatch, List.map_take, map_snd_undelivered]
  rcases le_total count (s.entries.length - s.cursor) with h | h
  · rw [List.take_range'_of_length_ge h, min_eq_left h]
  · rw [List.take_range'_of_length_le h, min_eq_right h]

/-- The ids of the next batch go on where the group stands. -/
theorem range_append_nextBatch (count : ℕ) :
    List.range s.cursor ++ (s.nextBatch count).map Prod.snd
      = List.range (s.cursor + (s.nextBatch count).length) := by
  rw [map_snd_nextBatch, List.range_eq_range', List.range_eq_range']
  simpa using List.range'_append_1 (s := 0) (m := s.cursor) (n := (s.nextBatch count).length)

theorem mem_map_snd_nextBatch (count : ℕ) {k : ℕ} :
    k ∈ (s.nextBatch count).map Prod.snd ↔
      s.cursor ≤ k ∧ k < s.cursor + (s.nextBatch count).length := by
  rw [map_snd_nextBatch, List.mem_range'_1]

theorem cursor_add_length_nextBatch_le (count : ℕ) :
    s.cursor + (s.nextBatch count).length ≤ s.entries.length := by
  have := s.cursor_le
  rw [nextBatch, undelivered, List.length_take, List.length_drop, List.length_zipIdx]
  omega

theorem getElem?_of_mem_nextBatch {s : GroupStream α ν} {count : ℕ} {e : α × ℕ}
    (h : e ∈ s.nextBatch count) : s.entries[e.2]? = some e.1 :=
  getElem?_of_mem_undelivered (List.mem_of_mem_take h)

/-- The records the PEL gains when the entries are delivered. -/
def deliver (consumer : ν) (now : ℕ) (batch : List (α × ℕ)) : List (Pending ν) :=
  batch.map fun e ↦ { id := e.2, consumer, deliveredAt := now }

@[simp] theorem map_id_deliver (consumer : ν) (now : ℕ) (batch : List (α × ℕ)) :
    (deliver consumer now batch).map Pending.id = batch.map Prod.snd := by
  rw [deliver, List.map_map]
  rfl

/-- `XREADGROUP … COUNT count STREAMS s >`: the entries delivered to the consumer, which the PEL
now holds under its name.  `none` is the `NOGROUP` error. -/
def xreadgroup (consumer : ν) (count now : ℕ) : Option (GroupStream α ν × List (α × ℕ)) :=
  if hcreated : s.created = false then none
  else
    some
      ({ s with
          cursor := s.cursor + (s.nextBatch count).length
          pel := s.pel ++ deliver consumer now (s.nextBatch count)
          fresh := fun h ↦ absurd h hcreated
          cursor_le := s.cursor_add_length_nextBatch_le count
          sorted := by
            rw [List.map_append, map_id_deliver, List.pairwise_append]
            refine ⟨s.sorted, ?_, fun a ha b hb ↦ ?_⟩
            · rw [map_snd_nextBatch]
              exact List.pairwise_lt_range'
            · exact (lt_cursor_of_mem_pelIds ha).trans_le ((s.mem_map_snd_nextBatch count).mp hb).1
          below := by
            intro p hp
            rcases List.mem_append.mp hp with hp | hp
            · exact (s.below p hp).trans_le (Nat.le_add_right _ _)
            · refine ((s.mem_map_snd_nextBatch count).mp ?_).2
              rw [← map_id_deliver consumer now]
              exact List.mem_map_of_mem hp },
        s.nextBatch count)

variable {s} {s' : GroupStream α ν} {consumer : ν} {count now : ℕ} {batch : List (α × ℕ)}

theorem xreadgroup_eq_some (h : s.xreadgroup consumer count now = some (s', batch)) :
    s.created = true ∧ batch = s.nextBatch count ∧ s'.created = true ∧
      s'.entries = s.entries ∧ s'.cursor = s.cursor + batch.length ∧
      s'.pel = s.pel ++ deliver consumer now batch := by
  rw [xreadgroup] at h
  split at h
  · cases h
  · rename_i hcreated
    cases h
    exact ⟨by simpa using hcreated, rfl, by simpa using hcreated, rfl, rfl, rfl⟩

theorem exists_xreadgroup_of_created (h : s.created = true) (consumer : ν) (count now : ℕ) :
    ∃ r, s.xreadgroup consumer count now = some r := by
  rw [xreadgroup, dif_neg (by simp [h])]
  exact ⟨_, rfl⟩

/-! ## `XACK` -/

variable (s) in
/-- `XACK`: the named entries leave the PEL. -/
def xack (ids : List ℕ) : GroupStream α ν :=
  { s with
    pel := s.pel.filter fun p ↦ p.id ∉ ids
    fresh := fun h ↦ by simp [(s.fresh h).1, (s.fresh h).2]
    sorted := s.sorted.sublist (List.filter_sublist.map _)
    below := fun p hp ↦ s.below p (List.mem_of_mem_filter hp) }

theorem mem_pel_xack {ids : List ℕ} {p : Pending ν} :
    p ∈ (s.xack ids).pel ↔ p ∈ s.pel ∧ p.id ∉ ids := by
  simp [xack]

theorem mem_pelIds_xack {ids : List ℕ} {k : ℕ} :
    k ∈ (s.xack ids).pelIds ↔ k ∈ s.pelIds ∧ k ∉ ids := by
  simp only [pelIds, List.mem_map, mem_pel_xack]
  constructor
  · rintro ⟨p, ⟨hp, hid⟩, rfl⟩
    exact ⟨⟨p, hp, rfl⟩, hid⟩
  · rintro ⟨⟨p, hp, rfl⟩, hid⟩
    exact ⟨p, ⟨hp, hid⟩, rfl⟩

/-- Acknowledging takes the named ids out of the PEL, and no other. -/
theorem count_pelIds_xack (ids : List ℕ) (k : ℕ) :
    (s.xack ids).pelIds.count k = if k ∈ ids then 0 else s.pelIds.count k := by
  split
  · rename_i hk
    exact List.count_eq_zero.mpr fun h ↦ (mem_pelIds_xack.mp h).2 hk
  · rename_i hk
    have hids : (s.xack ids).pelIds = s.pelIds.filter fun id ↦ id ∉ ids := by
      rw [pelIds, pelIds, List.filter_map]
      rfl
    rw [hids, List.count_filter (by simpa using hk)]

/-! ## `XAUTOCLAIM` -/

/-- The scan of `XAUTOCLAIM`: at most `attempts` records are examined, at most `count` idle ones
taken.  Returns the ids taken and the id to go on from, if records are left. -/
def scan (idle : Pending ν → Bool) : ℕ → ℕ → List (Pending ν) → List ℕ × Option ℕ
  | _, _, [] => ([], none)
  | 0, _, p :: _ => ([], some p.id)
  | _ + 1, 0, p :: _ => ([], some p.id)
  | attempts + 1, count + 1, p :: rest =>
    if idle p then
      let taken := scan idle attempts count rest
      (p.id :: taken.1, taken.2)
    else scan idle attempts (count + 1) rest

/-- The ids taken are those of idle records, in the order of the PEL. -/
theorem scan_sublist (idle : Pending ν → Bool) (attempts count : ℕ) (pel : List (Pending ν)) :
    (scan idle attempts count pel).1.Sublist ((pel.filter idle).map Pending.id) := by
  induction attempts, count, pel using scan.induct idle with
  | case1 => simp [scan]
  | case2 => simp [scan]
  | case3 => simp [scan]
  | case4 attempts count p rest hidle ih =>
    rw [scan, if_pos hidle, List.filter_cons_of_pos hidle, List.map_cons]
    exact ih.cons_cons p.id
  | case5 attempts count p rest hidle ih =>
    rw [scan, if_neg hidle, List.filter_cons_of_neg hidle]
    exact ih

/-- What the scan takes: the first `count` idle records among the first `attempts`. -/
theorem scan_fst_eq (idle : Pending ν → Bool) (attempts count : ℕ) (pel : List (Pending ν)) :
    (scan idle attempts count pel).1 =
      (((pel.take attempts).filter idle).take count).map Pending.id := by
  induction attempts, count, pel using scan.induct idle with
  | case1 => simp [scan]
  | case2 => simp [scan]
  | case3 => simp [scan]
  | case4 attempts count p rest hidle ih => simp [scan, hidle, ih]
  | case5 attempts count p rest hidle ih => simp [scan, hidle, ih]

variable (s) in
/-- The ids `XAUTOCLAIM … min-idle 0-0 COUNT count` takes, and where it would go on from. -/
def stale (minIdle count now : ℕ) : List ℕ × Option ℕ :=
  scan (fun p ↦ decide (minIdle ≤ now - p.deliveredAt)) (10 * count) count s.pel

variable (s) in
/-- The records one `XAUTOCLAIM` takes. -/
def claimable (minIdle count now : ℕ) : List (Pending ν) :=
  ((s.pel.take (10 * count)).filter fun p ↦ decide (minIdle ≤ now - p.deliveredAt)).take count

theorem stale_fst_eq (s : GroupStream α ν) (minIdle count now : ℕ) :
    (s.stale minIdle count now).1 = (s.claimable minIdle count now).map Pending.id :=
  scan_fst_eq _ _ _ _

theorem mem_pel_of_mem_claimable {s : GroupStream α ν} {minIdle count now : ℕ} {p : Pending ν}
    (h : p ∈ s.claimable minIdle count now) : p ∈ s.pel ∧ minIdle ≤ now - p.deliveredAt := by
  obtain ⟨hp, hidle⟩ := List.mem_filter.mp (List.mem_of_mem_take h)
  exact ⟨List.mem_of_mem_take hp, by simpa using hidle⟩

theorem stale_sublist_pelIds (s : GroupStream α ν) (minIdle count now : ℕ) :
    (s.stale minIdle count now).1.Sublist s.pelIds :=
  (scan_sublist _ _ _ _).trans (List.filter_sublist.map _)

/-- The record after the consumer claimed the ids. -/
def reown (consumer : ν) (now : ℕ) (ids : List ℕ) (p : Pending ν) : Pending ν :=
  if p.id ∈ ids then { p with consumer, deliveredAt := now } else p

theorem reown_of_notMem {ids : List ℕ} {p : Pending ν} (h : p.id ∉ ids) (consumer : ν) (now : ℕ) :
    reown consumer now ids p = p := if_neg h

@[simp] theorem reown_id (consumer : ν) (now : ℕ) (ids : List ℕ) (p : Pending ν) :
    (reown consumer now ids p).id = p.id := by
  rw [reown]
  split
  · rfl
  · rfl

variable (s) in
/-- `XAUTOCLAIM`: the stale entries move to the consumer and are returned, with the id to go on
from.  `none` is the `NOGROUP` error. -/
def xautoclaim (consumer : ν) (minIdle count now : ℕ) :
    Option (GroupStream α ν × Option ℕ × List (α × ℕ)) :=
  if hcreated : s.created = false then none
  else
    let taken := s.stale minIdle count now
    some
      ({ s with
          pel := s.pel.map (reown consumer now taken.1)
          fresh := fun h ↦ absurd h hcreated
          sorted := by
            rw [List.map_map]
            refine (List.map_congr_left fun p _ ↦ ?_) ▸ s.sorted
            simp
          below := by
            intro p hp
            obtain ⟨q, hq, rfl⟩ := List.mem_map.mp hp
            rw [reown_id]
            exact s.below q hq },
        taken.2, taken.1.filterMap fun id ↦ s.entries[id]?.map fun a ↦ (a, id))

theorem exists_xautoclaim_of_created (h : s.created = true) (consumer : ν) (minIdle count now : ℕ) :
    ∃ r, s.xautoclaim consumer minIdle count now = some r := by
  rw [xautoclaim, dif_neg (by simp [h])]
  exact ⟨_, rfl⟩

variable {minIdle : ℕ} {next : Option ℕ}

theorem xautoclaim_eq_some
    (h : s.xautoclaim consumer minIdle count now = some (s', next, batch)) :
    s.created = true ∧ s'.created = true ∧ s'.entries = s.entries ∧ s'.cursor = s.cursor ∧
      s'.pel = s.pel.map (reown consumer now (s.stale minIdle count now).1) ∧
      next = (s.stale minIdle count now).2 ∧
      batch = (s.stale minIdle count now).1.filterMap
        fun id ↦ s.entries[id]?.map fun a ↦ (a, id) := by
  rw [xautoclaim] at h
  split at h
  · cases h
  · rename_i hcreated
    cases h
    exact ⟨by simpa using hcreated, by simpa using hcreated, rfl, rfl, rfl, rfl, rfl⟩

/-- A claim moves records of the PEL and takes none out. -/
theorem pelIds_xautoclaim
    (h : s.xautoclaim consumer minIdle count now = some (s', next, batch)) :
    s'.pelIds = s.pelIds := by
  obtain ⟨-, -, -, -, hpel, -⟩ := xautoclaim_eq_some h
  rw [pelIds, hpel, List.map_map, pelIds]
  refine List.map_congr_left fun p _ ↦ ?_
  simp

/-- Every id taken has its entry returned. -/
theorem map_snd_xautoclaim
    (h : s.xautoclaim consumer minIdle count now = some (s', next, batch)) :
    batch.map Prod.snd = (s.stale minIdle count now).1 := by
  obtain ⟨-, -, -, -, -, -, rfl⟩ := xautoclaim_eq_some h
  have hlt : ∀ k ∈ (s.stale minIdle count now).1, k < s.entries.length := fun k hk ↦
    (lt_cursor_of_mem_pelIds ((s.stale_sublist_pelIds _ _ _).subset hk)).trans_le s.cursor_le
  rw [List.map_filterMap]
  calc (s.stale minIdle count now).1.filterMap
        (fun id ↦ (s.entries[id]?.map fun a ↦ (a, id)).map Prod.snd)
      = (s.stale minIdle count now).1.filterMap some := by
        refine List.filterMap_congr fun k hk ↦ ?_
        rw [List.getElem?_eq_getElem (hlt k hk)]
        rfl
    _ = (s.stale minIdle count now).1 := List.filterMap_some

theorem getElem?_of_mem_xautoclaim
    (h : s.xautoclaim consumer minIdle count now = some (s', next, batch)) {e : α × ℕ}
    (he : e ∈ batch) : s.entries[e.2]? = some e.1 := by
  obtain ⟨-, -, -, -, -, -, rfl⟩ := xautoclaim_eq_some h
  obtain ⟨id, -, hid⟩ := List.mem_filterMap.mp he
  obtain ⟨a, ha, rfl⟩ := Option.map_eq_some_iff.mp hid
  exact ha

/-! ## `XPENDING` and the lag -/

variable (s) in
/-- The number of pending entries, as `XPENDING` sums it up. -/
def xpending : ℕ := s.pel.length

end GroupStream

end ConsumerGroup
