import PostTrade.Models
import PostTrade.Lib.Text

/-!
# The bronze bucket

The bucket as the readers of `dataeng` see it: objects under keys, listed in the order of the keys.
`discover_bronze_partitions` reads symbols and dates off the keys.

A key is text, and UTF-8 keeps the order of characters, so the order of S3 is the lexicographic one.
-/

set_option autoImplicit false

namespace PostTrade

structure BronzeObject where
  key : Str
  /-- The text of the object; none where its bytes are not UTF-8. -/
  body : Option Str
  deriving DecidableEq

/-- A bucket: its objects in the order of their keys, one for each key. -/
structure Bucket where
  objects : List BronzeObject
  sorted : (objects.map BronzeObject.key).Pairwise (· < ·)

namespace Bucket

/-- The empty bucket. -/
def empty : Bucket where
  objects := []
  sorted := List.Pairwise.nil

/-- `put_object`: an object under the same key is replaced. -/
def put (b : Bucket) (o : BronzeObject) : Bucket where
  objects := b.objects.filter (·.key < o.key) ++ o :: b.objects.filter (o.key < ·.key)
  sorted := by
    have hfilter : ∀ p : BronzeObject → Bool,
        ((b.objects.filter p).map BronzeObject.key).Pairwise (· < ·) := fun p ↦
      b.sorted.sublist (List.filter_sublist.map _)
    have hbefore : ∀ k ∈ (b.objects.filter (·.key < o.key)).map BronzeObject.key, k < o.key := by
      intro k hk
      obtain ⟨o', ho', rfl⟩ := List.mem_map.mp hk
      exact of_decide_eq_true (List.mem_filter.mp ho').2
    have hafter : ∀ k ∈ (b.objects.filter (o.key < ·.key)).map BronzeObject.key, o.key < k := by
      intro k hk
      obtain ⟨o', ho', rfl⟩ := List.mem_map.mp hk
      exact of_decide_eq_true (List.mem_filter.mp ho').2
    rw [List.map_append, List.map_cons, List.pairwise_append, List.pairwise_cons]
    refine ⟨hfilter _, ⟨hafter, hfilter _⟩, fun k hk k' hk' ↦ ?_⟩
    rcases List.mem_cons.mp hk' with rfl | hk'
    · exact hbefore k hk
    · exact (hbefore k hk).trans (hafter k' hk')

/-- `list_objects_v2` with a prefix, all pages of it. -/
def listObjects (b : Bucket) (keyPrefix : Str) : List BronzeObject :=
  b.objects.filter fun o ↦ keyPrefix.isPrefixOf o.key

/-- `get_object`. -/
def getObject (b : Bucket) (key : Str) : Option BronzeObject :=
  b.objects.find? fun o ↦ o.key = key

theorem mem_put {b : Bucket} {o o' : BronzeObject} :
    o' ∈ (b.put o).objects ↔ o' = o ∨ o' ∈ b.objects ∧ o'.key ≠ o.key := by
  simp only [put, List.mem_append, List.mem_cons, List.mem_filter, decide_eq_true_eq]
  constructor
  · rintro (⟨h, hlt⟩ | rfl | ⟨h, hlt⟩)
    · exact .inr ⟨h, hlt.ne⟩
    · exact .inl rfl
    · exact .inr ⟨h, hlt.ne'⟩
  · rintro (rfl | ⟨h, hne⟩)
    · exact .inr (.inl rfl)
    · rcases lt_or_gt_of_ne hne with hlt | hlt
      · exact .inl ⟨h, hlt⟩
      · exact .inr (.inr ⟨h, hlt⟩)

/-- An object is found under its key. -/
theorem getObject_of_mem {b : Bucket} {o : BronzeObject} (h : o ∈ b.objects) :
    b.getObject o.key = some o := by
  have hnodup : (b.objects.map BronzeObject.key).Nodup := b.sorted.imp ne_of_lt
  rw [getObject]
  cases hfind : b.objects.find? fun o' ↦ o'.key = o.key with
  | none => exact absurd (decide_eq_true rfl) (List.find?_eq_none.mp hfind o h)
  | some o' =>
    have hkey : o'.key = o.key := by simpa using List.find?_some hfind
    rw [List.inj_on_of_nodup_map hnodup (List.mem_of_find?_eq_some hfind) h hkey]

end Bucket

/-! ## Partitions -/

/-- A symbol and a date. -/
abbrev Partition := Str × Str

/-- One part of a key in `discover_bronze_partitions`: it may name the symbol or the date. -/
def readKeyPart (found : Option Str × Option Str) (part : Str) : Option Str × Option Str :=
  if "symbol=".toList.isPrefixOf part then (some (part.drop 7), found.2)
  else if "date=".toList.isPrefixOf part then (found.1, some (part.drop 5))
  else found

/-- The partition a key belongs to, if the key names a symbol and a date that are not empty. -/
def partitionOfKey (key : Str) : Option Partition :=
  match (key.splitOn '/').foldl readKeyPart (none, none) with
  | (some symbol, some date) => if symbol ≠ [] ∧ date ≠ [] then some (symbol, date) else none
  | _ => none

/-- `discover_bronze_partitions`. -/
def discoverBronzePartitions (b : Bucket) : List Partition :=
  ((b.listObjects "ticks/".toList).filterMap fun o ↦ partitionOfKey o.key).dedup

/-- The prefix of the keys of a partition. -/
def partitionPrefix (symbol date : Str) : Str :=
  "ticks/symbol=".toList ++ symbol ++ "/date=".toList ++ date ++ "/".toList

/-- An object of a partition with one trade of its symbol in it. -/
def tradeObject (p : Partition) (name price : String) : BronzeObject where
  key := partitionPrefix p.1 p.2 ++ "hour=00/".toList ++ name.toList ++ ".ndjson".toList
  body := some ("\x7b\"type\":\"match\",\"product_id\":\"".toList ++ p.1
    ++ "\",\"price\":\"".toList ++ price.toList ++ "\"\x7d\n".toList)

def btcFirst : Partition := ("BTC-USD".toList, "2026-01-01".toList)
def ethFirst : Partition := ("ETH-USD".toList, "2026-01-01".toList)

theorem mem_discoverBronzePartitions {b : Bucket} {p : Partition} :
    p ∈ discoverBronzePartitions b ↔
      ∃ o ∈ b.objects, "ticks/".toList <+: o.key ∧ partitionOfKey o.key = some p := by
  simp only [discoverBronzePartitions, List.mem_dedup, List.mem_filterMap, Bucket.listObjects,
    List.mem_filter, List.isPrefixOf_iff_prefix, and_assoc]

theorem nodup_discoverBronzePartitions (b : Bucket) : (discoverBronzePartitions b).Nodup :=
  List.nodup_dedup _

/-! ## A bucket that gains objects -/

/-- Every key of the one bucket is one of the other. -/
def Bucket.Grows (b b' : Bucket) : Prop :=
  ∀ o ∈ b.objects, ∃ o' ∈ b'.objects, o'.key = o.key

theorem Bucket.grows_put (b : Bucket) (o : BronzeObject) : b.Grows (b.put o) := by
  intro o' ho'
  by_cases hkey : o'.key = o.key
  · exact ⟨o, Bucket.mem_put.mpr (.inl rfl), hkey.symm⟩
  · exact ⟨o', Bucket.mem_put.mpr (.inr ⟨ho', hkey⟩), rfl⟩

/-- A partition that has been discovered stays there. -/
theorem Bucket.Grows.discovers {b b' : Bucket} (h : b.Grows b') {p : Partition}
    (hp : p ∈ discoverBronzePartitions b) : p ∈ discoverBronzePartitions b' := by
  obtain ⟨o, ho, hprefix, hpartition⟩ := mem_discoverBronzePartitions.mp hp
  obtain ⟨o', ho', hkey⟩ := h o ho
  exact mem_discoverBronzePartitions.mpr ⟨o', ho', hkey ▸ hprefix, hkey ▸ hpartition⟩

end PostTrade
