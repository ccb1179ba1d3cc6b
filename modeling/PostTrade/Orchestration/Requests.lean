import PostTrade.Orchestration.Sensor

/-!
# What the sensor requests

The sensor on its own: one evaluation after the other, each with the cursor the one before stored,
over a bucket that gains objects in between.  Python iterates over the set of partitions in an order
of its own, which becomes the order of the cursor.

The cursor remembers the partitions of the last evaluation.  As they do not go away again,
these are all the partitions there have been, and `requested_exactly_once` follows: each is
requested once, by the evaluation that first discovers it.  A date is written by the bronze writer
and has no comma in it; where one has, the cursor reads back as other partitions.
-/

set_option autoImplicit false

namespace PostTrade

/-- An evaluation: the bucket it sees, and the set of its partitions in the order of iteration. -/
structure Evaluation where
  bucket : Bucket
  available : List Partition
  iterates : available.Perm (discoverBronzePartitions bucket)

/-- The evaluation discovers the partition. -/
def Evaluation.Discovers (e : Evaluation) (p : Partition) : Prop :=
  p ∈ discoverBronzePartitions e.bucket

instance (e : Evaluation) (p : Partition) : Decidable (e.Discovers p) :=
  inferInstanceAs (Decidable (p ∈ discoverBronzePartitions e.bucket))

/-- What each of a run of evaluations requests, the first one having the given cursor. -/
def requests : Option Str → List Evaluation → List (List Partition)
  | _, [] => []
  | cursor, e :: rest =>
    (newBronzePartitionSensor cursor e.available).1 ::
      requests (some (newBronzePartitionSensor cursor e.available).2) rest

/-- Requests are sorted and free of repeats. -/
theorem pairwise_requests (cursor : Option Str) (evaluations : List Evaluation) :
    ∀ requested ∈ requests cursor evaluations,
      requested.Pairwise fun p q ↦ toLex p < toLex q := by
  induction evaluations generalizing cursor with
  | nil => exact fun requested h ↦ absurd h List.not_mem_nil
  | cons e rest ih =>
    intro requested h
    rcases List.mem_cons.mp h with rfl | h
    · have hnodup : e.available.Nodup :=
        e.iterates.nodup_iff.mpr (nodup_discoverBronzePartitions _)
      exact Frame.sortBy_pairwise_lt toLex ((hnodup.filter _).map toLex.injective)
    · exact ih _ requested h

/-- **What a run of evaluations requests** from a cursor on that remembers only partitions that are
there: an evaluation requests what it is the first to discover, unless the cursor remembers it. -/
theorem mem_requests {cursor : Option Str} {evaluations : List Evaluation}
    (hgrow : evaluations.Pairwise fun e e' ↦ e.bucket.Grows e'.bucket)
    (hnames : ∀ e ∈ evaluations, ∀ p, e.Discovers p → Undelimited p)
    (hcursor : ∀ p ∈ decodeCursor cursor, ∀ e ∈ evaluations, e.Discovers p) (p : Partition)
    (i : ℕ) : p ∈ (requests cursor evaluations).getD i [] ↔
      p ∉ decodeCursor cursor ∧ evaluations.findIdx? (fun e ↦ e.Discovers p) = some i := by
  induction evaluations generalizing cursor i with
  | nil => simp [requests]
  | cons e rest ih =>
    have hrest := List.pairwise_cons.mp hgrow
    have havailable : ∀ q, q ∈ e.available ↔ e.Discovers q := fun q ↦ e.iterates.mem_iff
    have hdecode : decodeCursor (some (newBronzePartitionSensor cursor e.available).2)
        = e.available := by
      refine decodeCursor_encodeCursor fun q hq ↦ ?_
      exact hnames e List.mem_cons_self q ((havailable q).mp hq)
    have hremembers : ∀ q ∈ decodeCursor (some (newBronzePartitionSensor cursor e.available).2),
        ∀ e' ∈ rest, e'.Discovers q := by
      intro q hq e' he'
      rw [hdecode, havailable] at hq
      exact (hrest.1 e' he').discovers hq
    have ih := ih hrest.2 (fun e' he' ↦ hnames e' (List.mem_cons_of_mem _ he')) hremembers
    rw [requests, List.findIdx?_cons]
    cases i with
    | zero =>
      rw [List.getD_cons_zero, mem_newBronzePartitionSensor, havailable]
      by_cases hp : e.Discovers p
      · simp [hp]
      · simp [hp]
    | succ i =>
      rw [List.getD_cons_succ, ih, hdecode, havailable]
      by_cases hp : e.Discovers p
      · simp [hp]
      · -- what this evaluation does not discover the cursor did not remember
        have hunseen : p ∉ decodeCursor cursor :=
          fun hseen ↦ hp (hcursor p hseen e List.mem_cons_self)
        simp [hp, hunseen]

/-- **The sensor requests each partition exactly once**, in the evaluation that first discovers it,
whatever order the sets are iterated in; the requests of an evaluation are sorted and free of
repeats. -/
theorem requested_exactly_once (evaluations : List Evaluation)
    (hgrow : evaluations.Pairwise fun e e' ↦ e.bucket.Grows e'.bucket)
    (hnames : ∀ e ∈ evaluations, ∀ p, e.Discovers p → Undelimited p) :
    (∀ p i, p ∈ (requests none evaluations).getD i [] ↔
      evaluations.findIdx? (fun e ↦ e.Discovers p) = some i) ∧
    (∀ p, (∃ e ∈ evaluations, e.Discovers p) →
      ∃! i, p ∈ (requests none evaluations).getD i []) ∧
    ∀ requested ∈ requests none evaluations,
      requested.Pairwise fun p q ↦ toLex p < toLex q := by
  have hmem : ∀ p i, p ∈ (requests none evaluations).getD i [] ↔
      evaluations.findIdx? (fun e ↦ e.Discovers p) = some i := by
    intro p i
    rw [mem_requests hgrow hnames (fun q hq ↦ absurd hq List.not_mem_nil)]
    exact and_iff_right List.not_mem_nil
  refine ⟨hmem, fun p hp ↦ ?_, pairwise_requests none evaluations⟩
  obtain ⟨e, he, hdiscovers⟩ := hp
  have hsome : (evaluations.findIdx? fun e ↦ e.Discovers p).isSome = true := by
    rw [List.findIdx?_isSome, List.any_eq_true]
    exact ⟨e, he, decide_eq_true hdiscovers⟩
  obtain ⟨i, hi⟩ := Option.isSome_iff_exists.mp hsome
  refine ⟨i, (hmem p i).mpr hi, fun j hj ↦ ?_⟩
  have hj := (hmem p j).mp hj
  rw [hi] at hj
  exact (Option.some.inj hj).symm

/-! ### Two evaluations -/

/-- A bucket with one object, and the evaluation that sees it. -/
def sees (p : Partition) : Evaluation where
  bucket := Bucket.empty.put (tradeObject p "0" "100")
  available := discoverBronzePartitions (Bucket.empty.put (tradeObject p "0" "100"))
  iterates := List.Perm.refl _

def commaDate : Partition := ("ETH-USD".toList, "2026,01".toList)

theorem discovers_sees {p q : Partition} (h : partitionOfKey (tradeObject p "0" "100").key = some p)
    (hq : (sees p).Discovers q) : q = p := by
  obtain ⟨o, ho, -, hkey⟩ := mem_discoverBronzePartitions.mp hq
  rcases Bucket.mem_put.mp ho with rfl | ⟨ho, -⟩
  · rw [h] at hkey
    exact (Option.some.inj hkey).symm
  · cases ho

theorem grows_sees (p : Partition) :
    [sees p, sees p].Pairwise fun e e' ↦ e.bucket.Grows e'.bucket := by
  refine List.pairwise_pair.mpr fun o ho ↦ ⟨o, ho, rfl⟩

/-- The second evaluation finds nothing new. -/
theorem requested_exactly_once_ethDay :
    (∃! i, ethFirst ∈ (requests none [sees ethFirst, sees ethFirst]).getD i []) ∧
      ethFirst ∈ (requests none [sees ethFirst, sees ethFirst]).getD 0 [] := by
  have hkey : partitionOfKey (tradeObject ethFirst "0" "100").key = some ethFirst := by
    decide +kernel
  have hdiscovers : (sees ethFirst).Discovers ethFirst := by decide +kernel
  obtain ⟨hfirst, honce, -⟩ := requested_exactly_once [sees ethFirst, sees ethFirst]
    (grows_sees ethFirst) (fun e he q hq ↦ by
      have he : e = sees ethFirst := by simpa using he
      have hq : (sees ethFirst).Discovers q := he ▸ hq
      rw [discovers_sees hkey hq]
      exact ⟨by decide, by decide, by decide⟩)
  refine ⟨honce ethFirst ⟨_, List.mem_cons_self, hdiscovers⟩, (hfirst ethFirst 0).mpr ?_⟩
  rw [List.findIdx?_cons, if_pos (decide_eq_true hdiscovers)]

/-- A date with a comma in it is requested again, although the symbol has none. -/
theorem comma_in_date_requested_twice :
    ([sees commaDate, sees commaDate].Pairwise fun e e' ↦ e.bucket.Grows e'.bucket) ∧
      (∀ e ∈ [sees commaDate, sees commaDate], ∀ p, e.Discovers p → ',' ∉ p.1 ∧ '|' ∉ p.1) ∧
      requests none [sees commaDate, sees commaDate] = [[commaDate], [commaDate]] := by
  have hkey : partitionOfKey (tradeObject commaDate "0" "100").key = some commaDate := by
    decide +kernel
  refine ⟨grows_sees commaDate, fun e he q hq ↦ ?_, by decide +kernel⟩
  have he : e = sees commaDate := by simpa using he
  have hq : (sees commaDate).Discovers q := he ▸ hq
  rw [discovers_sees hkey hq]
  exact ⟨by decide, by decide⟩

end PostTrade
