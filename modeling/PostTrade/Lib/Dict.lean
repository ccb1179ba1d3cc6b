import Mathlib

/-!
# Dictionaries in insertion order

A Python `dict` that is written to: one value for each key, and the keys in the order in which they
were first put in.  Setting a key that is there leaves it in its place.

What a lookup finds after an update is all the proofs need to know (`get?_set`, `get?_pop`); the
order of the keys matters only to code that loops over them.
-/

set_option autoImplicit false

/-- A dictionary: its items in order, with distinct keys. -/
structure OrderedDict (κ ν : Type*) where
  items : List (κ × ν)
  nodup : (items.map Prod.fst).Nodup

namespace OrderedDict

variable {κ ν : Type*} [DecidableEq κ]

/-- `{}`. -/
def empty : OrderedDict κ ν where
  items := []
  nodup := List.nodup_nil

/-- `d.keys()`. -/
def keys (d : OrderedDict κ ν) : List κ := d.items.map Prod.fst

/-- `d.get(k)`. -/
def get? (d : OrderedDict κ ν) (k : κ) : Option ν :=
  (d.items.find? fun item ↦ item.1 = k).map Prod.snd

/-- `d[k] = v`. -/
def set (d : OrderedDict κ ν) (k : κ) (v : ν) : OrderedDict κ ν :=
  if h : k ∈ d.keys then
    { items := d.items.map fun item ↦ if item.1 = k then (k, v) else item
      nodup := by
        have hkeys : (d.items.map fun item ↦ if item.1 = k then (k, v) else item).map Prod.fst
            = d.items.map Prod.fst := by
          rw [List.map_map]
          refine List.map_congr_left fun item _ ↦ ?_
          rw [Function.comp_apply]
          split
          · rename_i heq
            exact heq.symm
          · rfl
        rw [hkeys]
        exact d.nodup }
  else
    { items := d.items ++ [(k, v)]
      nodup := by
        rw [List.map_append, List.nodup_append]
        refine ⟨d.nodup, List.nodup_singleton k, ?_⟩
        rintro key hkey _ hk rfl
        rw [List.mem_singleton.mp hk] at hkey
        exact h hkey }

/-- `d.pop(k, None)`, without its result. -/
def pop (d : OrderedDict κ ν) (k : κ) : OrderedDict κ ν where
  items := d.items.filter fun item ↦ item.1 ≠ k
  nodup := d.nodup.sublist (List.filter_sublist.map _)

@[simp] theorem get?_empty (k : κ) : (empty : OrderedDict κ ν).get? k = none := rfl

theorem get?_eq_none_iff {d : OrderedDict κ ν} {k : κ} : d.get? k = none ↔ k ∉ d.keys := by
  rw [get?, Option.map_eq_none_iff, List.find?_eq_none, keys, List.mem_map]
  constructor
  · rintro h ⟨item, hitem, rfl⟩
    exact h item hitem (decide_eq_true rfl)
  · intro h item hitem heq
    exact h ⟨item, hitem, of_decide_eq_true heq⟩

theorem key_of_find? {items : List (κ × ν)} {k : κ} {item : κ × ν}
    (h : items.find? (fun item ↦ item.1 = k) = some item) : item.1 = k := by
  simpa using List.find?_some h

theorem get?_eq_some_iff {d : OrderedDict κ ν} {k : κ} {v : ν} :
    d.get? k = some v ↔ (k, v) ∈ d.items := by
  rw [get?, Option.map_eq_some_iff]
  constructor
  · rintro ⟨item, hitem, rfl⟩
    rw [← key_of_find? hitem]
    exact List.mem_of_find?_eq_some hitem
  · intro hmem
    obtain ⟨item, hitem⟩ : ∃ item, d.items.find? (fun item ↦ item.1 = k) = some item := by
      rw [← Option.isSome_iff_exists, List.find?_isSome]
      exact ⟨_, hmem, decide_eq_true rfl⟩
    -- distinct keys: it is this item that is found
    have heq : item = (k, v) :=
      List.inj_on_of_nodup_map d.nodup (List.mem_of_find?_eq_some hitem) hmem (key_of_find? hitem)
    exact ⟨item, hitem, by rw [heq]⟩

/-- The values in the order of the keys. -/
theorem map_snd_items (d : OrderedDict κ ν) (v₀ : ν) :
    d.items.map Prod.snd = d.keys.map fun k ↦ (d.get? k).getD v₀ := by
  rw [keys, List.map_map]
  refine List.map_congr_left fun item hitem ↦ ?_
  rw [Function.comp_apply, get?_eq_some_iff.mpr hitem, Option.getD_some]

/-- **What a lookup finds after an update.** -/
theorem get?_set (d : OrderedDict κ ν) (k k' : κ) (v : ν) :
    (d.set k v).get? k' = if k' = k then some v else d.get? k' := by
  rw [set]
  split
  · rename_i hk
    have hfind : ((d.items.map fun item ↦ if item.1 = k then (k, v) else item).find? fun item ↦
        item.1 = k') = (d.items.find? fun item ↦ item.1 = k').map fun item ↦
          if item.1 = k then (k, v) else item := by
      rw [List.find?_map]
      refine congrArg _ (congrArg (fun p ↦ d.items.find? p) (funext fun item ↦ ?_))
      rw [Function.comp_apply]
      split
      · rename_i heq
        rw [heq]
      · rfl
    rw [get?, hfind, Option.map_map]
    split
    · rename_i heq
      subst heq
      obtain ⟨item, hitem⟩ := Option.ne_none_iff_exists'.mp
        (mt Option.map_eq_none_iff.mpr (mt get?_eq_none_iff.mp (not_not_intro hk)))
      rw [hitem, Option.map_some, Function.comp_apply,
        if_pos (key_of_find? hitem)]
    · rename_i hne
      rw [get?]
      refine Option.map_congr fun item hitem ↦ ?_
      have heq := key_of_find? hitem
      rw [Function.comp_apply, if_neg fun h ↦ hne (heq.symm.trans h)]
  · rename_i hk
    rw [get?, List.find?_append]
    split
    · rename_i heq
      subst heq
      rw [Option.map_eq_none_iff.mp (get?_eq_none_iff.mpr hk), Option.none_or]
      simp
    · rename_i hne
      rw [List.find?_cons_of_neg (by simpa using Ne.symm hne), List.find?_nil, Option.or_none]
      rfl

theorem get?_pop (d : OrderedDict κ ν) (k k' : κ) :
    (d.pop k).get? k' = if k' = k then none else d.get? k' := by
  split
  · rename_i heq
    subst heq
    rw [get?_eq_none_iff, keys, pop]
    intro hmem
    obtain ⟨item, hitem, heq⟩ := List.mem_map.mp hmem
    exact of_decide_eq_true (List.mem_filter.mp hitem).2 heq
  · rename_i hne
    rw [get?, pop, List.find?_filter, get?]
    refine congrArg _ (congrArg (fun p ↦ d.items.find? p) (funext fun item ↦ ?_))
    by_cases heq : item.1 = k'
    · simp [heq, hne]
    · simp [heq]

end OrderedDict
