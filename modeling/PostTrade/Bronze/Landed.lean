import PostTrade.Bronze.RunBronzeIngestor
import PostTrade.Lib.Frame

/-!
# What lands in the bucket

The objects a bronze writer has put, read back partition by partition.

A flush of everything that returns leaves nothing in the buffers (`buffered_flushAll`), so what was
appended to a partition is then in its objects.  The objects whose names differ are all in the
bucket, in the order of their keys (`objects_ofPuts`), and those listed for a symbol and a date are
the ones of the symbol (`prefix_key_iff`).
-/

set_option autoImplicit false

namespace PostTrade

open Python

/-! ## After the last flush -/

namespace BronzeWriter

variable {client : Client}

theorem buffered_flushEach {partitions : List Str} {w w' : BronzeWriter}
    (h : w.flushEach client partitions = (.ok (), w')) {q : Str}
    (hq : q ∈ partitions ∨ w.buffered q = []) : w'.buffered q = [] := by
  induction partitions generalizing w with
  | nil =>
    cases h
    exact hq.resolve_left List.not_mem_nil
  | cons p rest ih =>
    rw [flushEach] at h
    split at h
    · cases h
    · rename_i w₁ hflush
      have hbuffered := buffered_flushPartition hflush q
      refine ih h ?_
      by_cases heq : q = p
      · exact .inr (hbuffered.trans (if_pos heq))
      · rw [hbuffered, if_neg heq]
        exact hq.imp_left fun hmem ↦ (List.mem_cons.mp hmem).resolve_left heq

/-- **A flush of everything that returns** leaves nothing in the buffers. -/
theorem buffered_flushAll {w w' : BronzeWriter} (h : w.flushAll client = (.ok (), w')) (q : Str) :
    w'.buffered q = [] := by
  refine buffered_flushEach h ?_
  by_cases hq : q ∈ w.buffers.keys
  · exact .inl hq
  · exact .inr (by rw [buffered, OrderedDict.get?_eq_none_iff.mpr hq, Option.getD_none])

end BronzeWriter

/-! ## The objects in the bucket -/

/-- The bucket after the puts. -/
def Bucket.ofPuts (puts : List Put) : Bucket :=
  puts.foldl (fun b p ↦ b.put p.object) .empty

theorem Bucket.objects_put_perm {b : Bucket} {o : BronzeObject}
    (h : o.key ∉ b.objects.map BronzeObject.key) : (b.put o).objects.Perm (o :: b.objects) := by
  have hafter : (b.objects.filter fun o' ↦ o.key < o'.key) =
      b.objects.filter fun o' ↦ !decide (o'.key < o.key) := by
    refine List.filter_congr fun o' ho' ↦ ?_
    have hne : o'.key ≠ o.key := fun heq ↦ h (heq ▸ List.mem_map_of_mem ho')
    rw [← decide_not, decide_eq_decide, not_lt]
    exact ⟨le_of_lt, fun hle ↦ lt_of_le_of_ne hle hne.symm⟩
  show (_ ++ o :: b.objects.filter (o.key < ·.key)).Perm _
  rw [hafter]
  exact List.perm_middle.trans ((List.filter_append_perm _ _).cons o)

/-- Objects with keys of their own are all in the bucket. -/
theorem Bucket.objects_ofPuts {puts : List Put}
    (h : (puts.map fun p ↦ p.object.key).Nodup) :
    (Bucket.ofPuts puts).objects.Perm (puts.map Put.object) := by
  induction puts using List.reverseRecOn with
  | nil => exact List.Perm.nil
  | append_singleton puts p ih =>
    rw [List.map_append, List.nodup_append] at h
    have ih := ih h.1
    rw [Bucket.ofPuts, List.foldl_append]
    show ((Bucket.ofPuts puts).put p.object).objects.Perm _
    have hkey : p.object.key ∉ (Bucket.ofPuts puts).objects.map BronzeObject.key := by
      intro hmem
      have hmem := (ih.map BronzeObject.key).mem_iff.mp hmem
      rw [List.map_map] at hmem
      exact h.2.2 _ hmem _ List.mem_cons_self rfl
    refine (Bucket.objects_put_perm hkey).trans ((ih.cons _).trans ?_)
    rw [List.map_append]
    exact (List.perm_append_singleton _ _).symm

/-- The puts whose objects are listed for a symbol and a date, in the order of their keys. -/
def listed (puts : List Put) (p : Partition) : List Put :=
  Frame.sortBy (fun put ↦ put.object.key)
    (puts.filter fun put ↦ (partitionPrefix p.1 p.2).isPrefixOf put.object.key)

theorem listObjects_ofPuts {puts : List Put} (h : (puts.map fun p ↦ p.object.key).Nodup)
    (p : Partition) : (Bucket.ofPuts puts).listObjects (partitionPrefix p.1 p.2) =
      (listed puts p).map Put.object := by
  have hperm : ((Bucket.ofPuts puts).listObjects (partitionPrefix p.1 p.2)).Perm
      ((listed puts p).map Put.object) := by
    refine ((Bucket.objects_ofPuts h).filter _).trans ?_
    rw [List.filter_map]
    exact ((Frame.sortBy_perm _ _).map Put.object).symm
  have hlisted : ((listed puts p).map Put.object).Pairwise fun o o' ↦ o.key < o'.key := by
    rw [List.pairwise_map]
    exact Frame.sortBy_pairwise_lt _ (h.sublist (List.filter_sublist.map _))
  have hobjects : ((Bucket.ofPuts puts).listObjects (partitionPrefix p.1 p.2)).Pairwise
      fun o o' ↦ o.key < o'.key :=
    (List.pairwise_map.mp (Bucket.ofPuts puts).sorted).sublist List.filter_sublist
  exact hperm.eq_of_pairwise (fun o o' _ _ hlt hgt ↦ absurd hgt hlt.asymm) hobjects hlisted

/-- Reading objects of a bucket. -/
theorem readBronzeLines_of_mem {b : Bucket} {puts : List Put}
    (h : ∀ put ∈ puts, put.object ∈ b.objects) :
    readBronzeLines b (puts.map fun put ↦ put.object.key) =
      .ok (puts.flatMap fun put ↦ objectLines (ndjson put.lines)) := by
  induction puts with
  | nil => rfl
  | cons put rest ih =>
    rw [List.map_cons, readBronzeLines, Bucket.getObject_of_mem (h put List.mem_cons_self),
      ih fun put' hput' ↦ h put' (List.mem_cons_of_mem _ hput')]
    rfl

/-- **The lines of a partition** whose objects hold one-line messages. -/
theorem bronzeLines_ofPuts {puts : List Put} (h : (puts.map fun p ↦ p.object.key).Nodup)
    (p : Partition) (hnonempty : ∀ put ∈ puts, put.lines ≠ [])
    (hlines : ∀ put ∈ puts, ∀ line ∈ put.lines, OneLine line ∧ strip line ≠ []) :
    bronzeLines (Bucket.ofPuts puts) p = .ok ((listed puts p).flatMap Put.lines) := by
  have hmem : ∀ put ∈ listed puts p, put ∈ puts := fun put hput ↦
    List.mem_of_mem_filter (Frame.mem_sortBy.mp hput)
  rw [bronzeLines, listBronzeObjects, listObjects_ofPuts h, List.map_map]
  refine (readBronzeLines_of_mem fun put hput ↦ ?_).trans (congrArg Except.ok ?_)
  · exact (Bucket.objects_ofPuts h).mem_iff.mpr (List.mem_map_of_mem (hmem put hput))
  · refine List.flatMap_congr fun put hput ↦ ?_
    have hput := hmem put hput
    exact objectLines_ndjson (hnonempty put hput) (fun line hline ↦ (hlines put hput line hline).1)
      fun line hline ↦ (hlines put hput line hline).2

/-! ## The objects of a symbol -/

/-- Where the directories `x/e/` begin a path `y/e/g/u`, either `y` is `x`, or `y` has `e` for a
directory of its own after `x`. -/
theorem prefix_path {x y e g u : Str} (he : '/' ∉ e) (hg : '/' ∉ g) (hu : '/' ∉ u) (hne : g ≠ e)
    (h : x ++ '/' :: (e ++ ['/']) <+: y ++ '/' :: (e ++ '/' :: (g ++ '/' :: u))) :
    y = x ∨ x ++ '/' :: e <+: y := by
  have hx := (List.prefix_append x _).trans h
  rcases List.prefix_or_prefix_of_prefix hx (List.prefix_append y _) with ⟨z, rfl⟩ | ⟨z, rfl⟩
  · -- `y` goes on after `x`
    rw [List.append_assoc, List.prefix_append_right_inj] at h
    have hdir : '/' :: e <+: z ++ '/' :: (e ++ '/' :: (g ++ '/' :: u)) :=
      (List.prefix_append ('/' :: e) ['/']).trans h
    rcases List.prefix_or_prefix_of_prefix hdir (List.prefix_append z _) with hz | ⟨w, hw⟩
    · exact .inr ((List.prefix_append_right_inj x).mpr hz)
    · cases z with
      | nil => exact .inl (List.append_nil x)
      | cons c z =>
        obtain rfl : c = '/' := (List.cons.inj hw).1
        cases w with
        | nil =>
          refine .inr ((List.prefix_append_right_inj x).mpr ?_)
          rw [← hw, List.append_nil]
        | cons c w =>
          -- what is left of `e` would begin with a `/`
          have hw : z ++ c :: w = e := (List.cons.inj hw).2
          have hleft : e ++ ['/'] = z ++ c :: (w ++ ['/']) := by
            rw [← hw, List.append_assoc, List.cons_append]
          rw [hleft, List.cons_append, List.cons_prefix_cons, List.prefix_append_right_inj,
            List.cons_prefix_cons] at h
          refine absurd ?_ he
          rw [← hw, h.2.1]
          exact List.mem_append_right z List.mem_cons_self
  · -- `x` goes on after `y`
    rw [List.append_assoc, List.prefix_append_right_inj] at h
    cases z with
    | nil => exact .inl (List.append_nil y).symm
    | cons c z =>
      rw [List.cons_append, List.cons_prefix_cons] at h
      have hcount := h.2.sublist.count_le '/'
      simp only [List.count_append, List.count_cons, List.count_eq_zero_of_not_mem he,
        List.count_eq_zero_of_not_mem hg, List.count_eq_zero_of_not_mem hu, beq_self_eq_true,
        if_true, List.count_nil] at hcount
      have hz : '/' ∉ z := List.count_eq_zero.mp (by omega)
      obtain ⟨r, hr⟩ := h.2
      rw [List.append_assoc, List.cons_append, List.append_assoc, List.singleton_append] at hr
      obtain ⟨-, hr⟩ := append_sep_inj hz he hr
      exact absurd (append_sep_inj he hg hr).1.symm hne

/-- The symbol goes on with the date after the one of the partition: its objects are listed with
those of the partition. -/
def GoesOn (p : Partition) (symbol : Str) : Prop := p.1 ++ "/date=".toList ++ p.2 <+: symbol

instance (p : Partition) (symbol : Str) : Decidable (GoesOn p symbol) :=
  inferInstanceAs (Decidable (_ <+: _))

theorem slash_not_mem_append {s t : Str} (hs : '/' ∉ s) (ht : '/' ∉ t) : '/' ∉ s ++ t :=
  fun h ↦ (List.mem_append.mp h).elim hs ht

/-- A partition as a path. -/
theorem partitionKey_eq (y : Str) (t : Time) : partitionKey y t = "ticks/symbol=".toList ++ (y ++
    '/' :: (("date=".toList ++ Datetime.dateText t) ++ '/' ::
      ("hour=".toList ++ Datetime.hourText t))) := by
  have hdate : "/date=".toList = '/' :: "date=".toList := by decide
  have hhour : "/hour=".toList = '/' :: "hour=".toList := by decide
  -- the equation of `partitionKey` would have Lean evaluate the texts in it
  show "ticks/symbol=".toList ++ y ++ "/date=".toList ++ Datetime.dateText t ++ "/hour=".toList ++
    Datetime.hourText t = _
  rw [hdate, hhour]
  generalize Datetime.dateText t = d
  generalize Datetime.hourText t = h
  generalize "date=".toList = dateName
  generalize "hour=".toList = hourName
  simp only [List.append_assoc, List.cons_append]

/-- The keys of a symbol and a date as the beginning of a path. -/
theorem partitionPrefix_eq (x d : Str) : partitionPrefix x d =
    "ticks/symbol=".toList ++ (x ++ '/' :: (("date=".toList ++ d) ++ ['/'])) := by
  have hdate : "/date=".toList = '/' :: "date=".toList := by decide
  show "ticks/symbol=".toList ++ x ++ "/date=".toList ++ d ++ ['/'] = _
  rw [hdate]
  generalize "date=".toList = dateName
  simp only [List.append_assoc, List.cons_append]

theorem slash_not_mem_date (t : Time) : '/' ∉ "date=".toList ++ Datetime.dateText t :=
  slash_not_mem_append (by decide) (Datetime.slash_not_mem_dateText t)

theorem slash_not_mem_hour (t : Time) : '/' ∉ "hour=".toList ++ Datetime.hourText t :=
  slash_not_mem_append (by decide) (Datetime.slash_not_mem_hourText t)

/-- The key of an object as a path. -/
theorem Put.key_eq {y : Str} {t : Time} {put : Put} (hpartition : put.partition = partitionKey y t) :
    put.object.key = "ticks/symbol=".toList ++ (y ++ '/' ::
      (("date=".toList ++ Datetime.dateText t) ++ '/' ::
        (("hour=".toList ++ Datetime.hourText t) ++ '/' :: (put.uuid ++ ".ndjson".toList)))) := by
  show put.partition ++ '/' :: put.uuid ++ ".ndjson".toList = _
  rw [hpartition, partitionKey_eq]
  generalize "date=".toList ++ Datetime.dateText t = d
  generalize "hour=".toList ++ Datetime.hourText t = h
  simp only [List.append_assoc, List.cons_append]

/-- **The objects listed for a symbol and a date** are those of the symbol, unless another one goes
on with the date after it. -/
theorem isPrefixOf_key_iff {x y : Str} {t : Time} {put : Put}
    (hapart : ¬ GoesOn (x, Datetime.dateText t) y) (hpartition : put.partition = partitionKey y t)
    (hname : '/' ∉ put.uuid) :
    (partitionPrefix x (Datetime.dateText t)).isPrefixOf put.object.key = true ↔ y = x := by
  rw [List.isPrefixOf_iff_prefix, put.key_eq hpartition, partitionPrefix_eq,
    List.prefix_append_right_inj]
  constructor
  · intro h
    by_contra hne
    have hhead : "hour=".toList ++ Datetime.hourText t ≠ "date=".toList ++ Datetime.dateText t := by
      have hhour : "hour=".toList = 'h' :: "our=".toList := by decide
      have hdate : "date=".toList = 'd' :: "ate=".toList := by decide
      rw [hhour, hdate, List.cons_append, List.cons_append]
      exact fun heq ↦ absurd (List.cons.inj heq).1 (by decide)
    rcases prefix_path (slash_not_mem_date t) (slash_not_mem_hour t)
      (slash_not_mem_append hname (by decide)) hhead h with heq | hgoes
    · exact hne heq
    · refine hapart ?_
      have hdate : "/date=".toList = '/' :: "date=".toList := by decide
      show x ++ "/date=".toList ++ Datetime.dateText t <+: y
      rw [hdate, List.append_assoc, List.cons_append]
      exact hgoes
  · rintro rfl
    rw [List.prefix_append_right_inj, List.cons_prefix_cons, List.prefix_append_right_inj,
      List.cons_prefix_cons]
    exact ⟨rfl, rfl, List.nil_prefix⟩

/-- The partitions of one day are apart for different symbols. -/
theorem symbol_eq_of_partitionKey {x y : Str} {t t' : Time} (hday : t / Datetime.day =
    t' / Datetime.day) (h : partitionKey x t = partitionKey y t') : x = y := by
  rw [partitionKey_eq, partitionKey_eq, Datetime.dateText_congr hday,
    List.append_cancel_left_eq] at h
  refine (List.append_inj' h ?_).1
  simp only [List.length_cons, List.length_append, Datetime.length_hourText]

/-- The partitions of a symbol are in the order of the hours. -/
theorem partitionKey_mono {x : Str} {t t' : Time} (hday : t / Datetime.day = t' / Datetime.day)
    (h : t ≤ t') : partitionKey x t ≤ partitionKey x t' := by
  show _ ++ Datetime.hourText t ≤ _ ++ Datetime.hourText t'
  rw [Datetime.dateText_congr hday]
  exact append_left_mono _ (Datetime.hourText_mono hday h)

/-! ## The texts of a symbol -/

/-- The lines of puts with their partitions. -/
def tagged (puts : List Put) : List (Str × Str) :=
  puts.flatMap fun put ↦ put.lines.map fun line ↦ (put.partition, line)

theorem map_snd_tagged (puts : List Put) : (tagged puts).map Prod.snd = puts.flatMap Put.lines := by
  rw [tagged, List.map_flatMap]
  refine List.flatMap_congr fun put _ ↦ ?_
  rw [List.map_map]
  exact List.map_id _

theorem filter_tagged (puts : List Put) (q : Str) : ((tagged puts).filter fun a ↦ a.1 = q) =
    ((puts.filter fun put ↦ put.partition = q).flatMap Put.lines).map fun line ↦ (q, line) := by
  induction puts with
  | nil => rfl
  | cons put rest ih =>
    rw [tagged, List.flatMap_cons, List.filter_append, ← tagged, ih, List.filter_map,
      List.filter_cons]
    by_cases hq : put.partition = q
    · simp [hq, Function.comp_def]
    · simp [hq, Function.comp_def]

/-- All messages of a day have landed, and the keys of their objects tell those of the symbol `x`
from the others; `t` is some time of the day. -/
structure Landed (client : Client) (today : ℤ) (base : List Entry) (x : Str) (t : Time)
    (s : BronzeIngestor) : Prop extends s.Tracks client today base where
  flushed : ∀ q, s.writer.buffered q = []
  day : t / Datetime.day = today
  keys : (s.writer.puts.map fun put ↦ put.object.key).Nodup
  slash : ∀ put ∈ s.writer.puts, '/' ∉ put.uuid
  apart : ∀ l ∈ s.landings, ¬ GoesOn (x, Datetime.dateText t) l.symbol

/-- The messages of a symbol. -/
def BronzeIngestor.landingsOf (s : BronzeIngestor) (x : Str) : List Landing :=
  s.landings.filter fun l ↦ l.symbol = x

/-- The lines listed for a symbol, in the order of the keys of their objects. -/
def BronzeIngestor.linesOf (s : BronzeIngestor) (x : Str) (t : Time) : List Str :=
  (listed s.writer.puts (x, Datetime.dateText t)).flatMap Put.lines

/-- The clock does not go back between messages of the symbol, and the objects of one partition are
put in the order of their keys. -/
structure Ordered (x : Str) (s : BronzeIngestor) : Prop where
  clock : (s.landingsOf x).Pairwise fun l l' ↦ l.receivedAt ≤ l'.receivedAt
  names : s.writer.puts.Pairwise fun put put' ↦
    put.partition = put'.partition → put.object.key < put'.object.key

namespace Landed

variable {client : Client} {today : ℤ} {base : List Entry} {x : Str} {t : Time}
  {s : BronzeIngestor} (h : Landed client today base x t s)

include h

/-- What is in the objects of a partition. -/
theorem stored_eq (q : Str) : s.writer.stored q =
    (s.landings.filter fun l ↦ l.partition = q).map Landing.rawText := by
  rw [← h.account, BronzeWriter.account, h.flushed, List.append_nil]

/-- Every object is in the partition of a message. -/
theorem exists_landing {put : Put} (hput : put ∈ s.writer.puts) :
    ∃ l ∈ s.landings, l.partition = put.partition := by
  by_contra hnone
  have hstored := h.stored_eq put.partition
  rw [List.filter_eq_nil_iff.mpr fun l hl ↦ by simpa using fun heq ↦ hnone ⟨l, hl, heq⟩] at hstored
  have hmem : put ∈ s.writer.puts.filter fun p ↦ p.partition = put.partition :=
    List.mem_filter.mpr ⟨hput, decide_eq_true rfl⟩
  exact h.sound.nonempty put hput (List.flatMap_eq_nil_iff.mp hstored put hmem)

/-- The messages of a partition are those of one symbol. -/
theorem symbol_of_partition {l l' : Landing} (hl : l ∈ s.landings) (hl' : l' ∈ s.landings)
    (heq : l.partition = l'.partition) : l.symbol = l'.symbol :=
  symbol_eq_of_partitionKey ((h.date l hl).trans (h.date l' hl').symm) heq

/-- The objects of the symbol are those that are listed for it. -/
theorem mem_listed_iff {put : Put} {l : Landing} (hput : put ∈ s.writer.puts)
    (hl : l ∈ s.landings) (hpartition : l.partition = put.partition) :
    put ∈ listed s.writer.puts (x, Datetime.dateText t) ↔ l.symbol = x := by
  have hdate : Datetime.dateText t = Datetime.dateText l.receivedAt :=
    Datetime.dateText_congr (h.day.trans (h.date l hl).symm)
  have hapart := h.apart l hl
  rw [hdate] at hapart ⊢
  rw [listed, Frame.mem_sortBy, List.mem_filter]
  exact (and_iff_right hput).trans
    (isPrefixOf_key_iff hapart hpartition.symm (h.slash put hput))

/-- Objects in a partition of the symbol are all listed. -/
theorem filter_listed_perm {l : Landing} (hl : l ∈ s.landingsOf x) :
    ((listed s.writer.puts (x, Datetime.dateText t)).filter fun put ↦
      put.partition = l.partition).Perm
        (s.writer.puts.filter fun put ↦ put.partition = l.partition) := by
  obtain ⟨hl, hx⟩ := List.mem_filter.mp hl
  refine ((Frame.sortBy_perm _ _).filter _).trans ?_
  rw [List.filter_filter]
  refine List.Perm.of_eq (List.filter_congr fun put hput ↦ ?_)
  by_cases hpartition : put.partition = l.partition
  · have hmem := (h.mem_listed_iff hput hl hpartition.symm).mpr (of_decide_eq_true hx)
    rw [listed, Frame.mem_sortBy, List.mem_filter] at hmem
    rw [hmem.2, Bool.and_true]
  · simp [hpartition]

/-- No others are. -/
theorem filter_listed_nil {q : Str} (hq : ∀ l ∈ s.landingsOf x, l.partition ≠ q) :
    ((listed s.writer.puts (x, Datetime.dateText t)).filter fun put ↦ put.partition = q) = [] := by
  refine List.filter_eq_nil_iff.mpr fun put hmem hpartition ↦ ?_
  have hput : put ∈ s.writer.puts := List.mem_of_mem_filter (Frame.mem_sortBy.mp hmem)
  obtain ⟨l, hl, heq⟩ := h.exists_landing hput
  have hx := (h.mem_listed_iff hput hl heq).mp hmem
  exact hq l (List.mem_filter.mpr ⟨hl, decide_eq_true hx⟩)
    (heq.trans (of_decide_eq_true hpartition))

/-- What the objects of a partition of the symbol hold. -/
theorem stored_partition {l : Landing} (hl : l ∈ s.landingsOf x) : s.writer.stored l.partition =
    ((s.landingsOf x).filter fun l' ↦ l'.partition = l.partition).map Landing.rawText := by
  obtain ⟨hl, hx⟩ := List.mem_filter.mp hl
  rw [h.stored_eq, BronzeIngestor.landingsOf, List.filter_filter]
  refine congrArg _ (List.filter_congr fun l' hl' ↦ ?_)
  by_cases hpartition : l'.partition = l.partition
  · rw [h.symbol_of_partition hl' hl hpartition, hx, Bool.and_true]
  · simp [hpartition]

/-- **The objects listed of a partition** hold its messages, in the order in which they were put. -/
theorem lines_of_partition (q : Str) : ∃ puts : List Put,
    puts.Perm ((listed s.writer.puts (x, Datetime.dateText t)).filter fun put ↦
      put.partition = q) ∧
    puts.Sublist s.writer.puts ∧ (∀ put ∈ puts, put.partition = q) ∧
    puts.flatMap Put.lines =
      ((s.landingsOf x).filter fun l ↦ l.partition = q).map Landing.rawText := by
  by_cases hq : ∃ l ∈ s.landingsOf x, l.partition = q
  · obtain ⟨l, hl, rfl⟩ := hq
    refine ⟨_, (h.filter_listed_perm hl).symm, List.filter_sublist, fun put hput ↦ ?_,
      h.stored_partition hl⟩
    exact of_decide_eq_true (List.mem_filter.mp hput).2
  · have hnone : ∀ l ∈ s.landingsOf x, l.partition ≠ q := fun l hl heq ↦ hq ⟨l, hl, heq⟩
    refine ⟨[], ?_, List.nil_sublist _, fun put hput ↦ (nomatch hput), ?_⟩
    · rw [h.filter_listed_nil hnone]
    · rw [List.filter_eq_nil_iff.mpr fun l hl ↦ by simpa using hnone l hl]
      rfl

omit h in
/-- The messages of a partition, each with the name of the partition. -/
theorem filter_landingsOf (q : Str) :
    (((s.landingsOf x).map fun l ↦ (l.partition, l.rawText)).filter fun a ↦ a.1 = q) =
      (((s.landingsOf x).filter fun l ↦ l.partition = q).map Landing.rawText).map
        fun line ↦ (q, line) := by
  rw [List.filter_map, List.map_map]
  refine List.map_congr_left fun l hl ↦ ?_
  have hpartition : l.partition = q := of_decide_eq_true (List.mem_filter.mp hl).2
  rw [hpartition]
  rfl

omit h in
theorem map_snd_landingsOf : ((s.landingsOf x).map fun l ↦ (l.partition, l.rawText)).map Prod.snd =
    (s.landingsOf x).map Landing.rawText := List.map_map ..

/-- **Every message of the symbol is listed**, as often as it arrived. -/
theorem linesOf_perm : (s.linesOf x t).Perm ((s.landingsOf x).map Landing.rawText) := by
  rw [BronzeIngestor.linesOf, ← map_snd_tagged, ← map_snd_landingsOf]
  refine List.Perm.map _ (Frame.perm_of_filter_perm Prod.fst fun q ↦ ?_)
  obtain ⟨puts, hperm, -, -, hlines⟩ := h.lines_of_partition q
  rw [filter_tagged, filter_landingsOf, ← hlines]
  exact (hperm.symm.flatMap_right _).map _

/-- The partition of an object listed. -/
theorem partition_of_listed {put : Put}
    (hput : put ∈ listed s.writer.puts (x, Datetime.dateText t)) :
    ∃ t', t' / Datetime.day = today ∧ put.partition = partitionKey x t' := by
  have hmem : put ∈ s.writer.puts := List.mem_of_mem_filter (Frame.mem_sortBy.mp hput)
  obtain ⟨l, hl, heq⟩ := h.exists_landing hmem
  have hx := (h.mem_listed_iff hmem hl heq).mp hput
  exact ⟨l.receivedAt, h.date l hl, by rw [← heq, Landing.partition, hx]⟩

/-- The objects listed are in the order of their partitions. -/
theorem pairwise_listed : (listed s.writer.puts (x, Datetime.dateText t)).Pairwise
    fun put put' ↦ put.partition ≤ put'.partition := by
  have hsorted : (listed s.writer.puts (x, Datetime.dateText t)).Pairwise
      fun put put' ↦ put.object.key < put'.object.key :=
    Frame.sortBy_pairwise_lt _ (h.keys.sublist (List.filter_sublist.map _))
  refine hsorted.imp_of_mem fun {put put'} hput hput' hlt ↦ ?_
  obtain ⟨t₁, hday₁, hpartition⟩ := h.partition_of_listed hput
  obtain ⟨t₂, hday₂, hpartition'⟩ := h.partition_of_listed hput'
  have hlength : put.partition.length = put'.partition.length := by
    rw [hpartition, hpartition', partitionKey_eq, partitionKey_eq,
      Datetime.dateText_congr (hday₁.trans hday₂.symm)]
    simp only [List.length_append, List.length_cons, Datetime.length_hourText]
  change put.partition ++ '/' :: put.uuid ++ ".ndjson".toList <
    put'.partition ++ '/' :: put'.uuid ++ ".ndjson".toList at hlt
  rw [List.append_assoc, List.append_assoc] at hlt
  exact le_of_append_lt hlength hlt

/-- **In order, the messages of the symbol are listed as they arrived.** -/
theorem linesOf_eq (hordered : Ordered x s) :
    s.linesOf x t = (s.landingsOf x).map Landing.rawText := by
  rw [BronzeIngestor.linesOf, ← map_snd_tagged, ← map_snd_landingsOf]
  refine congrArg _ (Frame.eq_of_filter_eq Prod.fst ?_ ?_ fun q ↦ ?_)
  · rw [tagged, List.pairwise_flatMap]
    constructor
    · intro put _
      rw [List.pairwise_map]
      exact List.pairwise_of_forall fun _ _ ↦ le_rfl
    · refine h.pairwise_listed.imp fun {put put'} hle a ha a' ha' ↦ ?_
      obtain ⟨_, -, rfl⟩ := List.mem_map.mp ha
      obtain ⟨_, -, rfl⟩ := List.mem_map.mp ha'
      exact hle
  · rw [List.pairwise_map]
    refine hordered.clock.imp_of_mem fun {l l'} hl hl' hle ↦ ?_
    obtain ⟨hl, hx⟩ := List.mem_filter.mp hl
    obtain ⟨hl', hx'⟩ := List.mem_filter.mp hl'
    show partitionKey l.symbol l.receivedAt ≤ partitionKey l'.symbol l'.receivedAt
    rw [of_decide_eq_true hx, of_decide_eq_true hx']
    exact partitionKey_mono ((h.date l hl).trans (h.date l' hl').symm) hle
  · obtain ⟨puts, hperm, hsublist, hpartition, hlines⟩ := h.lines_of_partition q
    rw [filter_tagged, filter_landingsOf, ← hlines]
    have hputs : puts.Pairwise fun put put' ↦ put.object.key < put'.object.key :=
      (hordered.names.sublist hsublist).imp_of_mem fun hput hput' hlt ↦
        hlt ((hpartition _ hput).trans (hpartition _ hput').symm)
    have hlisted : ((listed s.writer.puts (x, Datetime.dateText t)).filter fun put ↦
        put.partition = q).Pairwise fun put put' ↦ put.object.key < put'.object.key :=
      (Frame.sortBy_pairwise_lt _ (h.keys.sublist (List.filter_sublist.map _))).sublist
        List.filter_sublist
    rw [hperm.eq_of_pairwise (fun _ _ _ _ hlt hgt ↦ absurd hgt hlt.asymm) hputs hlisted]

/-- **The lines of the partition** are those of the objects listed, each as it was handed over. -/
theorem bronzeLines_eq : bronzeLines (Bucket.ofPuts s.writer.puts) (x, Datetime.dateText t) =
    .ok (s.linesOf x t) := by
  refine bronzeLines_ofPuts h.keys _ h.sound.nonempty fun put hput line hline ↦ ?_
  have hmem : line ∈ s.writer.stored put.partition := List.mem_flatMap.mpr
    ⟨put, List.mem_filter.mpr ⟨hput, decide_eq_true rfl⟩, hline⟩
  rw [h.stored_eq] at hmem
  obtain ⟨l, hl, rfl⟩ := List.mem_map.mp hmem
  exact h.lines l (List.mem_of_mem_filter hl)

end Landed

/-! ## After a run -/

/-- What `uuid4().hex` draws in so many calls: hexadecimal digits, and never the same ones twice. -/
structure Client.DrawsHex (client : Client) (calls : ℕ) : Prop where
  distinct : Set.InjOn client.uuid {n | n < calls}
  hex : ∀ n < calls, ∀ c ∈ client.uuid n, c ∈ "0123456789abcdef".toList

/-- The name can be told from the key. -/
theorem uuid_eq_of_key_eq {put put' : Put} (hslash : '/' ∉ put.uuid) (hslash' : '/' ∉ put'.uuid)
    (h : put.object.key = put'.object.key) : put.uuid = put'.uuid := by
  have hreverse : put.uuid.reverse ++ '/' :: put.partition.reverse =
      put'.uuid.reverse ++ '/' :: put'.partition.reverse := by
    have hkey : put.partition ++ '/' :: put.uuid = put'.partition ++ '/' :: put'.uuid :=
      List.append_cancel_right h
    have hreverse := congrArg List.reverse hkey
    simpa only [List.reverse_append, List.reverse_cons, List.append_assoc,
      List.singleton_append] using hreverse
  have hname := (append_sep_inj (by simpa using hslash) (by simpa using hslash') hreverse).1
  exact List.reverse_inj.mp hname

/-- **Everything of a day has landed** after a run of the bronze ingestor and a last flush. -/
theorem landed_of_run {client : Client} {printed : Json → Str} {symbols : List Str}
    {stream : TickStream} {flushMaxLines : ℤ} {flushMaxSeconds : ℚ} {occurrences : List Occurrence}
    {today : ℤ} {s : BronzeIngestor} {x : Str} {t : Time}
    (hregular : ∀ o ∈ occurrences, BronzeIngestor.Regular today o)
    (hrun : BronzeIngestor.runToEnd client printed
      (BronzeIngestor.init symbols stream flushMaxLines flushMaxSeconds) occurrences = some s)
    (hhex : client.DrawsHex s.writer.putCalls) (ht : t / Datetime.day = today)
    (hapart : ∀ l ∈ s.landings, ¬ GoesOn (x, Datetime.dateText t) l.symbol) :
    Landed client today stream.entries x t s := by
  rw [BronzeIngestor.runToEnd] at hrun
  split at hrun
  · cases hrun
  · rename_i s₁ hmessages
    split at hrun
    · cases hrun
    · rename_i w hflush
      obtain rfl := Option.some.inj hrun
      have htracks := ((BronzeIngestor.tracks_init client today symbols stream flushMaxLines
        flushMaxSeconds).run hregular hmessages).call (c := .flushAll) fun _ ↦ rfl
      have hwriter : (s₁.writer.call client .flushAll).2 = w := congrArg Prod.snd hflush
      rw [hwriter] at htracks
      have hslash : ∀ put ∈ w.puts, '/' ∉ put.uuid := by
        intro put hput hmem
        obtain ⟨n, hn, huuid⟩ := htracks.named.exists_draw hput
        rw [huuid] at hmem
        exact absurd (hhex.hex n hn '/' hmem) (by decide)
      have hnodup := htracks.named.nodup hhex.distinct
      refine ⟨htracks, BronzeWriter.buffered_flushAll hflush, ht, ?_, hslash, hapart⟩
      exact (List.Nodup.of_map _ hnodup).map_on fun put hput put' hput' heq ↦
        List.inj_on_of_nodup_map hnodup hput hput'
          (uuid_eq_of_key_eq (hslash put hput) (hslash put' hput') heq)

end PostTrade
