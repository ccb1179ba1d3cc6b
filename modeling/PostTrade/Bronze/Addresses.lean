import PostTrade.Bronze.Landed

/-!
# The addresses of bronze

Three parts of the source know where the objects of a symbol and a date are.  The writer formats a
key, `discover_bronze_partitions` splits keys at their slashes and takes the parts that say
`symbol=` and `date=`, and the transform lists the keys that begin with those of the partition.

A symbol goes into the key as it is.  With a slash in it, it is more than one part, and what is
discovered is never the symbol that was written: `addresses_agree_iff` says that the three agree on
what a writer has put exactly when no symbol has one.
-/

set_option autoImplicit false

namespace PostTrade

open Python

/-! ## Reading a key -/

/-- What is read off a key is a part of it. -/
theorem slash_not_mem_of_partitionOfKey {key : Str} {p : Partition}
    (h : partitionOfKey key = some p) : '/' ∉ p.1 := by
  have hfold : ∀ (parts : List Str) (found : Option Str × Option Str),
      (∀ part ∈ parts, '/' ∉ part) → (∀ s, found.1 = some s → '/' ∉ s) →
        ∀ s, (parts.foldl readKeyPart found).1 = some s → '/' ∉ s := by
    intro parts
    induction parts with
    | nil => exact fun found _ hfound ↦ hfound
    | cons part rest ih =>
      intro found hparts hfound
      refine ih _ (fun q hq ↦ hparts q (List.mem_cons_of_mem _ hq)) fun s hs ↦ ?_
      rw [readKeyPart] at hs
      split at hs
      · obtain rfl := Option.some.inj hs
        exact fun hmem ↦ hparts part List.mem_cons_self (List.mem_of_mem_drop hmem)
      · split at hs
        · exact hfound s hs
        · exact hfound s hs
  have hsymbol := hfold (key.splitOn '/') (none, none)
    (fun part hpart ↦ not_mem_of_mem_splitOn hpart) fun s hs ↦ nomatch hs
  rw [partitionOfKey] at h
  split at h
  · rename_i symbol date heq
    split at h
    · obtain rfl := Option.some.inj h
      exact hsymbol symbol (congrArg Prod.fst heq)
    · cases h
  · cases h

/-! ### The parts of a key -/

section Parts

variable (found : Option Str × Option Str)

theorem readKeyPart_symbol (x : Str) :
    readKeyPart found ("symbol=".toList ++ x) = (some x, found.2) := by
  have hstart : "symbol=".toList.isPrefixOf ("symbol=".toList ++ x) = true :=
    List.isPrefixOf_iff_prefix.mpr (List.prefix_append _ x)
  rw [readKeyPart, if_pos hstart, List.drop_left' (by decide)]

theorem readKeyPart_date (d : Str) :
    readKeyPart found ("date=".toList ++ d) = (found.1, some d) := by
  have hsplit : "date=".toList = 'd' :: "ate=".toList := by decide
  have hsymbol : ¬ "symbol=".toList.isPrefixOf ("date=".toList ++ d) = true := by
    rw [hsplit, List.cons_append]
    exact Bool.false_ne_true
  have hstart : "date=".toList.isPrefixOf ("date=".toList ++ d) = true :=
    List.isPrefixOf_iff_prefix.mpr (List.prefix_append _ d)
  rw [readKeyPart, if_neg hsymbol, if_pos hstart, List.drop_left' (by decide)]

theorem readKeyPart_hour (h : Str) : readKeyPart found ("hour=".toList ++ h) = found := by
  have hsplit : "hour=".toList = 'h' :: "our=".toList := by decide
  rw [hsplit, List.cons_append]
  rfl

/-- A part without `=` is neither a symbol nor a date. -/
theorem readKeyPart_of_not_mem {part : Str} (h : '=' ∉ part) : readKeyPart found part = found := by
  have hstart : ∀ name : Str, '=' ∈ name → ¬ name.isPrefixOf part = true := by
    intro name hname hstart
    exact h ((List.isPrefixOf_iff_prefix.mp hstart).subset hname)
  rw [readKeyPart, if_neg (hstart _ (by decide)), if_neg (hstart _ (by decide))]

end Parts

/-- **What is discovered of an object** is the symbol and the date it was written under, if the
symbol has no slash in it. -/
theorem partitionOfKey_key {x : Str} {t : Time} {put : Put} (hx : x ≠ []) (hslash : '/' ∉ x)
    (hpartition : put.partition = partitionKey x t)
    (hhex : ∀ c ∈ put.uuid, c ∈ "0123456789abcdef".toList) :
    partitionOfKey put.object.key = some (x, Datetime.dateText t) := by
  have hticks : "ticks/symbol=".toList = "ticks".toList ++ '/' :: "symbol=".toList := by decide
  have hname : ∀ c, c ∉ "0123456789abcdef".toList → c ∉ ".ndjson".toList →
      c ∉ put.uuid ++ ".ndjson".toList := fun c hc hc' hmem ↦
    (List.mem_append.mp hmem).elim (fun h ↦ hc (hhex c h)) hc'
  have hdate : Datetime.dateText t ≠ [] := by
    rw [Datetime.dateText]
    simp
  have hsymbolPart : '/' ∉ "symbol=".toList ++ x := slash_not_mem_append (by decide) hslash
  rw [partitionOfKey, put.key_eq hpartition, hticks, List.append_assoc, List.cons_append,
    ← List.append_assoc "symbol=".toList,
    List.splitOn_append_cons_self_of_not_mem (by decide),
    List.splitOn_append_cons_self_of_not_mem hsymbolPart,
    List.splitOn_append_cons_self_of_not_mem (slash_not_mem_date t),
    List.splitOn_append_cons_self_of_not_mem (slash_not_mem_hour t),
    List.splitOn_eq_singleton (hname '/' (by decide) (by decide))]
  simp only [List.foldl_cons, List.foldl_nil, readKeyPart_symbol, readKeyPart_date,
    readKeyPart_hour, readKeyPart_of_not_mem _ (hname '=' (by decide) (by decide)),
    readKeyPart_of_not_mem _ (show '=' ∉ "ticks".toList by decide)]
  exact if_pos ⟨hx, hdate⟩

/-! ## Listing keys -/

/-- The object was flushed for the symbol on the date. -/
def FlushedFor (p : Partition) (put : Put) : Prop :=
  ∃ t, put.partition = partitionKey p.1 t ∧ Datetime.dateText t = p.2

/-- **What is listed for a symbol and a date** is what was flushed for them, among symbols that have
no slash in them. -/
theorem prefix_key_iff {p : Partition} {y : Str} {t : Time} {put : Put} (hp : '/' ∉ p.1)
    (hy : '/' ∉ y) (hdate : '/' ∉ p.2) (hpartition : put.partition = partitionKey y t) :
    partitionPrefix p.1 p.2 <+: put.object.key ↔ p = (y, Datetime.dateText t) := by
  have hpart : '/' ∉ "date=".toList ++ p.2 := slash_not_mem_append (by decide) hdate
  rw [put.key_eq hpartition, partitionPrefix_eq, List.prefix_append_right_inj,
    prefix_sep_iff hp hy, prefix_sep_iff hpart (slash_not_mem_date t), List.append_cancel_left_eq,
    Prod.ext_iff]
  exact and_congr_right fun _ ↦ and_iff_left List.nil_prefix

/-- The bucket has the keys of the puts. -/
theorem Bucket.mem_keys_ofPuts {puts : List Put} {key : Str} :
    key ∈ (Bucket.ofPuts puts).objects.map BronzeObject.key ↔
      ∃ put ∈ puts, put.object.key = key := by
  induction puts using List.reverseRecOn with
  | nil => simp [ofPuts, Bucket.empty]
  | append_singleton puts put ih =>
    rw [ofPuts, List.foldl_append]
    show key ∈ ((ofPuts puts).put put.object).objects.map BronzeObject.key ↔ _
    have hput : key ∈ ((ofPuts puts).put put.object).objects.map BronzeObject.key ↔
        put.object.key = key ∨ key ∈ (ofPuts puts).objects.map BronzeObject.key := by
      simp only [List.mem_map, Bucket.mem_put]
      constructor
      · rintro ⟨o, rfl | ⟨ho, -⟩, rfl⟩
        · exact .inl rfl
        · exact .inr ⟨o, ho, rfl⟩
      · rintro (rfl | ⟨o, ho, rfl⟩)
        · exact ⟨_, .inl rfl, rfl⟩
        · by_cases hkey : o.key = put.object.key
          · exact ⟨_, .inl rfl, hkey.symm⟩
          · exact ⟨o, .inr ⟨ho, hkey⟩, rfl⟩
    rw [hput, ih]
    simp only [List.mem_append, List.mem_singleton, or_and_right, exists_or, exists_eq_left]
    exact or_comm

theorem mem_listBronzeObjects_ofPuts {puts : List Put} {keyPrefix key : Str} :
    key ∈ listBronzeObjects (Bucket.ofPuts puts) keyPrefix ↔
      keyPrefix <+: key ∧ ∃ put ∈ puts, put.object.key = key := by
  rw [← Bucket.mem_keys_ofPuts, listBronzeObjects, Bucket.listObjects, List.mem_map, List.mem_map]
  simp only [List.mem_filter, List.isPrefixOf_iff_prefix]
  constructor
  · rintro ⟨o, ⟨ho, hstart⟩, rfl⟩
    exact ⟨hstart, o, ho, rfl⟩
  · rintro ⟨hstart, o, ho, rfl⟩
    exact ⟨o, ⟨ho, hstart⟩, rfl⟩

/-- What is discovered is what can be read off the keys. -/
theorem mem_discoverBronzePartitions_ofPuts {puts : List Put} {p : Partition} :
    p ∈ discoverBronzePartitions (Bucket.ofPuts puts) ↔
      ∃ put ∈ puts, "ticks/".toList <+: put.object.key ∧
        partitionOfKey put.object.key = some p := by
  rw [mem_discoverBronzePartitions]
  constructor
  · rintro ⟨o, ho, h⟩
    obtain ⟨put, hput, hkey⟩ := Bucket.mem_keys_ofPuts.mp (List.mem_map_of_mem ho)
    exact ⟨put, hput, hkey ▸ h⟩
  · rintro ⟨put, hput, h⟩
    obtain ⟨o, ho, hkey⟩ := List.mem_map.mp (Bucket.mem_keys_ofPuts.mpr ⟨put, hput, rfl⟩)
    exact ⟨o, ho, hkey.symm ▸ h⟩

/-! ## The three together -/

namespace BronzeWriter

/-- The symbols and dates of the messages that calls append. -/
def appendedPairs (cs : List Call) : List Partition :=
  cs.filterMap fun c ↦
    match c with
    | .append symbol _ receivedAt _ => some (symbol, Datetime.dateText receivedAt)
    | _ => none

theorem mem_appendedPairs {cs : List Call} {p : Partition} :
    p ∈ appendedPairs cs ↔ ∃ message t now, .append p.1 message t now ∈ cs ∧
      Datetime.dateText t = p.2 := by
  rw [appendedPairs, List.mem_filterMap]
  constructor
  · rintro ⟨c, hc, h⟩
    match c, h with
    | .append symbol message t now, h =>
      obtain rfl := Option.some.inj h
      exact ⟨message, t, now, hc, rfl⟩
  · rintro ⟨message, t, now, hc, hdate⟩
    exact ⟨_, hc, congrArg some (Prod.ext rfl hdate)⟩

theorem flatMap_appended_ne_nil_iff {cs : List Call} {partition : Str} :
    cs.flatMap (Call.appended partition) ≠ [] ↔
      ∃ symbol message t now, .append symbol message t now ∈ cs ∧
        partitionKey symbol t = partition := by
  rw [Ne, List.flatMap_eq_nil_iff]
  push Not
  constructor
  · rintro ⟨c, hc, hne⟩
    cases c with
    | append symbol message t now =>
      by_cases hpartition : partitionKey symbol t = partition
      · exact ⟨symbol, message, t, now, hc, hpartition⟩
      · exact absurd (if_neg hpartition) hne
    | flush _ => exact absurd rfl hne
    | flushDue _ => exact absurd rfl hne
    | flushAll => exact absurd rfl hne
  · rintro ⟨symbol, message, t, now, hc, hpartition⟩
    refine ⟨_, hc, ?_⟩
    rw [Call.appended, if_pos hpartition]
    exact List.cons_ne_nil _ _

/-- A partition with an object has something stored: no object is without lines. -/
theorem Sound.stored_ne_nil_iff {w : BronzeWriter} (h : w.Sound) {partition : Str} :
    w.stored partition ≠ [] ↔ ∃ put ∈ w.puts, put.partition = partition := by
  rw [stored, Ne, List.flatMap_eq_nil_iff]
  push Not
  simp only [List.mem_filter, decide_eq_true_eq]
  constructor
  · rintro ⟨put, hput, -⟩
    exact ⟨put, hput⟩
  · rintro ⟨put, hput, hpartition⟩
    exact ⟨put, ⟨hput, hpartition⟩, h.nonempty put hput⟩

/-- Where nothing is held back, the objects are those of the partitions appended to. -/
theorem exists_put_iff {client : Client} {flushMaxLines : ℤ} {flushMaxSeconds : ℚ}
    {cs : List Call}
    (hflushed : ∀ q, (calls client { flushMaxLines, flushMaxSeconds } cs).buffered q = [])
    (partition : Str) :
    (∃ put ∈ (calls client { flushMaxLines, flushMaxSeconds } cs).puts,
        put.partition = partition) ↔
      ∃ symbol message t now, .append symbol message t now ∈ cs ∧
        partitionKey symbol t = partition := by
  obtain ⟨haccount, hsound⟩ := calls_spec client cs { flushMaxLines, flushMaxSeconds }
  have hstored := haccount partition
  rw [account, hflushed, List.append_nil] at hstored
  rw [← (hsound (sound_empty flushMaxLines flushMaxSeconds)).stored_ne_nil_iff, hstored,
    ← flatMap_appended_ne_nil_iff]
  rfl

/-- Writer, discovery and transform agree on where the objects are: discovery finds the pairs that
were appended, what is listed for a pair are the keys flushed for it, and every object is listed for
exactly one. -/
structure AddressesAgree (puts : List Put) (pairs : List Partition) : Prop where
  discovered : ∀ p, p ∈ discoverBronzePartitions (Bucket.ofPuts puts) ↔ p ∈ pairs
  listed : ∀ p ∈ pairs, ∀ key,
    key ∈ listBronzeObjects (Bucket.ofPuts puts) (partitionPrefix p.1 p.2) ↔
      ∃ put ∈ puts, FlushedFor p put ∧ put.object.key = key
  reached : ∀ put ∈ puts, ∃! p, p ∈ pairs ∧
    put.object.key ∈ listBronzeObjects (Bucket.ofPuts puts) (partitionPrefix p.1 p.2)

/-- The objects of symbols without slashes have their addresses right. -/
theorem addressesAgree_of_slash_not_mem {puts : List Put} {pairs : List Partition}
    (hhex : ∀ put ∈ puts, ∀ c ∈ put.uuid, c ∈ "0123456789abcdef".toList)
    (hsource : ∀ put ∈ puts, ∃ y t, put.partition = partitionKey y t ∧
      (y, Datetime.dateText t) ∈ pairs)
    (hput : ∀ p ∈ pairs, p.1 ≠ [] ∧ ∃ t, Datetime.dateText t = p.2 ∧
      ∃ put ∈ puts, put.partition = partitionKey p.1 t)
    (hslash : ∀ p ∈ pairs, '/' ∉ p.1) : AddressesAgree puts pairs := by
  have hdate : ∀ p ∈ pairs, '/' ∉ p.2 := by
    intro p hp
    obtain ⟨-, t, ht, -⟩ := hput p hp
    exact ht ▸ Datetime.slash_not_mem_dateText t
  have hlisted : ∀ p ∈ pairs, ∀ put ∈ puts, ∀ y t, put.partition = partitionKey y t →
      (y, Datetime.dateText t) ∈ pairs →
      (put.object.key ∈ listBronzeObjects (Bucket.ofPuts puts) (partitionPrefix p.1 p.2) ↔
        p = (y, Datetime.dateText t)) := by
    intro p hp put hmem y t hpartition hy
    rw [mem_listBronzeObjects_ofPuts,
      prefix_key_iff (hslash p hp) (hslash _ hy) (hdate p hp) hpartition]
    exact and_iff_left ⟨put, hmem, rfl⟩
  refine ⟨fun p ↦ ?_, fun p hp key ↦ ?_, fun put hmem ↦ ?_⟩
  · rw [mem_discoverBronzePartitions_ofPuts]
    constructor
    · rintro ⟨put, hmem, -, hkey⟩
      obtain ⟨y, t, hpartition, hy⟩ := hsource put hmem
      rw [partitionOfKey_key (hput _ hy).1 (hslash _ hy) hpartition (hhex put hmem)] at hkey
      exact Option.some.inj hkey ▸ hy
    · intro hp
      obtain ⟨hne, t, ht, put, hmem, hpartition⟩ := hput p hp
      have hticks : "ticks/symbol=".toList = "ticks/".toList ++ "symbol=".toList := by decide
      refine ⟨put, hmem, ?_, ?_⟩
      · rw [put.key_eq hpartition, hticks, List.append_assoc]
        exact List.prefix_append _ _
      · rw [partitionOfKey_key hne (hslash p hp) hpartition (hhex put hmem), ht]
  · constructor
    · intro hkey
      obtain ⟨put, hmem, rfl⟩ := (mem_listBronzeObjects_ofPuts.mp hkey).2
      obtain ⟨y, t, hpartition, hy⟩ := hsource put hmem
      obtain rfl := (hlisted p hp put hmem y t hpartition hy).mp hkey
      exact ⟨put, hmem, ⟨t, hpartition, rfl⟩, rfl⟩
    · rintro ⟨put, hmem, ⟨t, hpartition, ht⟩, rfl⟩
      have heq : p = (p.1, Datetime.dateText t) := Prod.ext rfl ht.symm
      exact (hlisted p hp put hmem p.1 t hpartition (heq ▸ hp)).mpr heq
  · obtain ⟨y, t, hpartition, hy⟩ := hsource put hmem
    exact ⟨_, ⟨hy, (hlisted _ hy put hmem y t hpartition hy).mpr rfl⟩,
      fun p hp ↦ (hlisted p hp.1 put hmem y t hpartition hy).mp hp.2⟩

/-- **When writer, discovery and transform agree.**  After any calls of a writer that leave nothing
buffered, discovery returns the symbols and dates that were appended, and each of them lists the
keys flushed for it, exactly when no symbol has a slash in it. -/
theorem addresses_agree_iff (client : Client) (flushMaxLines : ℤ) (flushMaxSeconds : ℚ)
    (cs : List Call) (hsymbols : ∀ p ∈ appendedPairs cs, p.1 ≠ [])
    (hflushed : ∀ q, (calls client { flushMaxLines, flushMaxSeconds } cs).buffered q = [])
    (hhex : ∀ n, ∀ c ∈ client.uuid n, c ∈ "0123456789abcdef".toList) :
    AddressesAgree (calls client { flushMaxLines, flushMaxSeconds } cs).puts (appendedPairs cs) ↔
      ∀ p ∈ appendedPairs cs, '/' ∉ p.1 := by
  constructor
  · intro h p hp
    obtain ⟨put, -, -, hkey⟩ := mem_discoverBronzePartitions_ofPuts.mp ((h.discovered p).mpr hp)
    exact slash_not_mem_of_partitionOfKey hkey
  · have hempty : Named client { flushMaxLines, flushMaxSeconds } := named_empty _ _
    have hnamed := hempty.calls cs
    refine addressesAgree_of_slash_not_mem (fun put hput ↦ ?_) (fun put hput ↦ ?_) fun p hp ↦ ?_
    · obtain ⟨n, -, huuid⟩ := hnamed.exists_draw hput
      exact huuid ▸ hhex n
    · obtain ⟨symbol, message, t, now, hc, hpartition⟩ :=
        (exists_put_iff hflushed put.partition).mp ⟨put, hput, rfl⟩
      exact ⟨symbol, t, hpartition.symm, mem_appendedPairs.mpr ⟨message, t, now, hc, rfl⟩⟩
    · obtain ⟨message, t, now, hc, ht⟩ := mem_appendedPairs.mp hp
      exact ⟨hsymbols p hp, t, ht,
        (exists_put_iff hflushed _).mpr ⟨p.1, message, t, now, hc, rfl⟩⟩

/-! ### One message -/

/-- A client that gives every object the same name. -/
def sameNameClient : Client where
  uuid := fun _ ↦ ['0', 'a']
  raises := fun _ ↦ false

/-- A message is appended under a symbol, and everything is flushed. -/
def appendAndFlush (symbol : Str) : List Call := [.append symbol "\x7b\x7d".toList 0 0, .flushAll]

theorem flushed_appendAndFlush {symbol : Str}
    (h : ((calls sameNameClient {} [.append symbol "\x7b\x7d".toList 0 0]).flushAll
      sameNameClient).1 = .ok ()) (q : Str) :
    (calls sameNameClient {} (appendAndFlush symbol)).buffered q = [] := by
  show (((calls sameNameClient {} [.append symbol "\x7b\x7d".toList 0 0]).flushAll
    sameNameClient).2).buffered q = []
  generalize calls sameNameClient {} [.append symbol "\x7b\x7d".toList 0 0] = w at h ⊢
  exact buffered_flushAll (Prod.ext h rfl) q

theorem addresses_agree_of_dash : AddressesAgree
    (calls sameNameClient {} (appendAndFlush "BTC-USD".toList)).puts
    [("BTC-USD".toList, "1970-01-01".toList)] := by
  have hpairs : appendedPairs (appendAndFlush "BTC-USD".toList) =
      [("BTC-USD".toList, "1970-01-01".toList)] := by decide +kernel
  have hnamed : ∀ p ∈ appendedPairs (appendAndFlush "BTC-USD".toList), p.1 ≠ [] ∧ '/' ∉ p.1 := by
    rw [hpairs]
    exact List.forall_mem_singleton.mpr ⟨by decide, by decide⟩
  have hhex : ∀ c ∈ ['0', 'a'], c ∈ "0123456789abcdef".toList :=
    List.forall_mem_cons.mpr ⟨by decide, List.forall_mem_singleton.mpr (by decide)⟩
  have hagree := (addresses_agree_iff sameNameClient 200 10 (appendAndFlush "BTC-USD".toList)
    (fun p hp ↦ (hnamed p hp).1) (flushed_appendAndFlush (by decide +kernel))
    fun _ ↦ hhex).mpr fun p hp ↦ (hnamed p hp).2
  rwa [hpairs] at hagree

/-- A pair written with a slash is discovered under what stands before it. -/
theorem slash_not_discovered :
    appendedPairs (appendAndFlush "BTC/USD".toList) = [("BTC/USD".toList, "1970-01-01".toList)] ∧
    discoverBronzePartitions (Bucket.ofPuts
      (calls sameNameClient {} (appendAndFlush "BTC/USD".toList)).puts) =
        [("BTC".toList, "1970-01-01".toList)] ∧
    ¬ AddressesAgree (calls sameNameClient {} (appendAndFlush "BTC/USD".toList)).puts
      (appendedPairs (appendAndFlush "BTC/USD".toList)) := by
  have hpairs : appendedPairs (appendAndFlush "BTC/USD".toList) =
      [("BTC/USD".toList, "1970-01-01".toList)] := by decide +kernel
  have hdiscovered : discoverBronzePartitions (Bucket.ofPuts
      (calls sameNameClient {} (appendAndFlush "BTC/USD".toList)).puts) =
        [("BTC".toList, "1970-01-01".toList)] := by decide +kernel
  refine ⟨hpairs, hdiscovered, fun h ↦ ?_⟩
  have hmem := (h.discovered ("BTC".toList, "1970-01-01".toList)).mp (by rw [hdiscovered]; simp)
  rw [hpairs] at hmem
  exact absurd hmem (by decide)

end BronzeWriter

end PostTrade
