import PostTrade.Bronze.BronzeWriter
import PostTrade.Ingest.AsyncIngestor
import PostTrade.Silver.Transform

/-!
# Reading bronze back

An object of the bronze writer is its messages, each ended by a newline.  `read_bronze_lines` cuts
an object wherever `str.splitlines` does, and drops what is blank.  A message is never blank, but a
JSON text may hold line breaks of its own: spaces between tokens, or characters such as U+2028 in
a string.

`read_back_iff` says that the messages of an object are read back exactly when none of them does.
-/

set_option autoImplicit false

namespace PostTrade

open Python

/-- The text of a message that the ingestor hands to the writer. -/
def Forwarded (message : Str) : Prop :=
  ∃ data, Json.loads message = .ok (.dict data) ∧
    AsyncIngestor.isRelevant (Json.get data "type".toList) = .ok true ∧
      (Json.get data "product_id".toList).isNone = false

/-- The test for such a text. -/
def isForwarded (message : Str) : Bool :=
  match Json.loads message with
  | .ok (.dict data) =>
    (AsyncIngestor.isRelevant (Json.get data "type".toList)).toOption = some true &&
      !(Json.get data "product_id".toList).isNone
  | _ => false

theorem isForwarded_iff {message : Str} : isForwarded message = true ↔ Forwarded message := by
  rw [isForwarded, Forwarded]
  split
  · rename_i data hloads
    rw [Bool.and_eq_true, decide_eq_true_eq, Bool.not_eq_true', hloads]
    have hok : (AsyncIngestor.isRelevant (Json.get data "type".toList)).toOption = some true ↔
        AsyncIngestor.isRelevant (Json.get data "type".toList) = .ok true := by
      cases AsyncIngestor.isRelevant (Json.get data "type".toList) with
      | error e => simp [Except.toOption]
      | ok b => simp [Except.toOption]
    rw [hok]
    constructor
    · exact fun h ↦ ⟨data, rfl, h⟩
    · rintro ⟨data', hdata, h⟩
      cases hdata
      exact h
  · rename_i hother
    refine iff_of_false Bool.false_ne_true ?_
    rintro ⟨data, hloads, -⟩
    exact hother data hloads

instance (message : Str) : Decidable (Forwarded message) :=
  decidable_of_iff _ isForwarded_iff

/-- The message holds no character that ends a line. -/
def OneLine (message : Str) : Prop := ∀ c ∈ message, isLineBreak c = false

instance (message : Str) : Decidable (OneLine message) :=
  decidable_of_iff (message.all (!isLineBreak ·) = true) (by simp [OneLine])

theorem Forwarded.not_blank {message : Str} (h : Forwarded message) : strip message ≠ [] := by
  obtain ⟨data, hloads, -⟩ := h
  exact strip_ne_nil (Json.brace_mem_of_loads hloads) rfl

/-! ## The lines of an object -/

/-- `read_bronze_lines` on the text of one object. -/
def objectLines (body : Str) : List Str := (splitlines body).filter fun line ↦ strip line ≠ []

/-- The lines read have no line breaks in them. -/
theorem oneLine_of_mem_objectLines {body line : Str} (h : line ∈ objectLines body) :
    OneLine line := not_isLineBreak_of_mem_splitlines (List.mem_of_mem_filter h)

/-- Messages that are one line each are read back. -/
theorem objectLines_ndjson {messages : List Str} (hne : messages ≠ [])
    (hone : ∀ m ∈ messages, OneLine m) (hblank : ∀ m ∈ messages, strip m ≠ []) :
    objectLines (ndjson messages) = messages := by
  rw [objectLines, ndjson_eq hne, splitlines_flatMap_newline hone, List.filter_eq_self]
  intro m hm
  exact decide_eq_true (hblank m hm)

/-- Reading the object of a put. -/
theorem readBronzeLines_put (b : Bucket) (p : Put) :
    readBronzeLines (b.put p.object) [p.object.key] = .ok (objectLines (ndjson p.lines)) := by
  rw [readBronzeLines, Bucket.getObject_of_mem (Bucket.mem_put.mpr (.inl rfl))]
  show Except.ok (objectLines (ndjson p.lines) ++ []) = _
  rw [List.append_nil]

/-- Flushing a partition puts its buffer. -/
theorem BronzeWriter.flush_puts (client : Client) (w : BronzeWriter) {partition : Str}
    (hname : partition ≠ []) (hbuffer : w.buffered partition ≠ [])
    (hput : client.raises w.putCalls = false) :
    (w.flush client (some partition)).2.puts =
      w.puts ++ [⟨partition, client.uuid w.putCalls, w.buffered partition⟩] := by
  rw [flush, if_neg hname, flushEach, flushPartition, if_neg hbuffer, hput]
  rfl

/-- **When reading bronze back undoes writing it.**  The object a flush puts for the messages of a
partition is read back as those messages exactly when none of them holds a line break. -/
theorem read_back_iff (client : Client) (w : BronzeWriter) (partition : Str) (bucket : Bucket)
    (hname : partition ≠ []) (hbuffer : w.buffered partition ≠ [])
    (hforwarded : ∀ m ∈ w.buffered partition, Forwarded m)
    (hput : client.raises w.putCalls = false) :
    ∃ put, (w.flush client (some partition)).2.puts = w.puts ++ [put] ∧
      (readBronzeLines (bucket.put put.object) [put.object.key] = .ok (w.buffered partition) ↔
        ∀ m ∈ w.buffered partition, OneLine m) := by
  refine ⟨_, w.flush_puts client hname hbuffer hput, ?_⟩
  rw [readBronzeLines_put, Except.ok.injEq]
  constructor
  · intro h m hm
    rw [← h] at hm
    exact oneLine_of_mem_objectLines hm
  · intro h
    exact objectLines_ndjson hbuffer h fun m hm ↦ (hforwarded m hm).not_blank

/-! ### A message on two lines -/

/-- A client whose calls succeed. -/
def reliableClient : Client where
  uuid := fun n ↦ (Nat.repr n).toList
  raises := fun _ ↦ false

/-- A match, with a text between two of its tokens. -/
def matchMessage (space : String) : Str :=
  "\x7b\"type\":\"match\",".toList ++ space.toList ++
    "\"product_id\":\"BTC-USD\",\"price\":\"100\"\x7d".toList

/-- A writer that holds a match. -/
def holdingWriter (space : String) : BronzeWriter :=
  (BronzeWriter.append reliableClient "BTC-USD".toList (matchMessage space) 0 0 {}).2

theorem read_back_of_space :
    ∃ put, (BronzeWriter.flush reliableClient (some (partitionKey "BTC-USD".toList 0))
        (holdingWriter " ")).2.puts = (holdingWriter " ").puts ++ [put] ∧
      readBronzeLines (Bucket.empty.put put.object) [put.object.key] =
        .ok ((holdingWriter " ").buffered (partitionKey "BTC-USD".toList 0)) := by
  obtain ⟨put, hput, hiff⟩ := read_back_iff reliableClient (holdingWriter " ")
    (partitionKey "BTC-USD".toList 0) Bucket.empty (by decide +kernel) (by decide +kernel)
    (by decide +kernel) rfl
  refine ⟨put, hput, hiff.mpr ?_⟩
  have hbuffer : (holdingWriter " ").buffered (partitionKey "BTC-USD".toList 0)
      = [matchMessage " "] := by decide +kernel
  rw [hbuffer]
  intro m hm
  rw [List.mem_singleton.mp hm]
  decide +kernel

/-- A match that is printed on two lines is read back as two halves. -/
theorem newline_not_read_back :
    Forwarded (matchMessage "\n") ∧
      (holdingWriter "\n").buffered (partitionKey "BTC-USD".toList 0) = [matchMessage "\n"] ∧
        ∃ put, (BronzeWriter.flush reliableClient (some (partitionKey "BTC-USD".toList 0))
            (holdingWriter "\n")).2.puts = [put] ∧
          readBronzeLines (Bucket.empty.put put.object) [put.object.key] =
            .ok ["\x7b\"type\":\"match\",".toList,
              "\"product_id\":\"BTC-USD\",\"price\":\"100\"\x7d".toList] := by
  have hput : (BronzeWriter.flush reliableClient (some (partitionKey "BTC-USD".toList 0))
      (holdingWriter "\n")).2.puts =
        [⟨partitionKey "BTC-USD".toList 0, "0".toList, [matchMessage "\n"]⟩] := by
    decide +kernel
  refine ⟨by decide +kernel, by decide +kernel, _, hput, ?_⟩
  rw [readBronzeLines_put]
  decide +kernel

end PostTrade
