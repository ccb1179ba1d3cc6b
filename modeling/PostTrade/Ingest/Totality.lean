import PostTrade.Ingest.AsyncIngestor

/-!
# When normalizing raises

The messages of the feed carry text in every field that `normalize` reads.  It guards against a
price and a size that are no numbers, with nothing between those and `Tick`: a time that is not in
ISO format raises, and so does a number that is none of the finite ones, which `Decimal` takes and
`Tick` refuses once the sequence has been drawn.  A symbol that UTF-8 cannot encode gets as far as a
tick, which then cannot be published.

`normalize_text` is the whole call on such a message.  `normalize_total_iff` says which messages it
is total on, in the sense that a feed needs.
-/

set_option autoImplicit false

namespace PostTrade

open Python

/-! ## Messages of text -/

/-- The field is a text, or not there. -/
def TextField (data : Dict) (key : String) : Prop :=
  (Json.get data key.toList).isNone ∨ (text? (Json.get data key.toList)).isSome

instance (data : Dict) (key : String) : Decidable (TextField data key) :=
  inferInstanceAs (Decidable (_ ∨ _))

/-- Every field that `normalize` reads is a text or is not there. -/
structure TextFields (data : Dict) : Prop where
  symbol : TextField data "product_id"
  price : TextField data "price"
  size : TextField data "size"
  lastSize : TextField data "last_size"
  side : TextField data "side"
  time : TextField data "time"

instance (data : Dict) : Decidable (TextFields data) :=
  decidable_of_iff (TextField data "product_id" ∧ TextField data "price" ∧ TextField data "size" ∧
      TextField data "last_size" ∧ TextField data "side" ∧ TextField data "time")
    ⟨fun ⟨symbol, price, size, lastSize, side, time⟩ ↦ ⟨symbol, price, size, lastSize, side, time⟩,
      fun h ↦ ⟨h.symbol, h.price, h.size, h.lastSize, h.side, h.time⟩⟩

theorem text?_of_isNone {value : Json} (h : value.isNone) : text? value = none := by
  match value, h with
  | .null, _ => rfl

theorem isNone_of_text {value : Json} (h : (text? value).isSome) : value.isNone = false := by
  match value, h with
  | .str _, _ => rfl
  | .surrogates _, _ => rfl

/-- The field that the size is read from. -/
def sizeRaw (data : Dict) : Json :=
  let size := Json.get data "size".toList
  if size.truthy then size else Json.get data "last_size".toList

/-- The number a text is, if it is one. -/
def decimal? : Json → Option Decimal
  | .str s => Decimal.ofStr? s
  | _ => none

/-- The price of the message, if it is a number. -/
def priceOf (data : Dict) : Option Decimal := decimal? (Json.get data "price".toList)

theorem tryDecimal_text {value : Json} (h : (text? value).isSome) :
    tryDecimal value = .ok (decimal? value) := by
  match value, h with
  | .str s, _ =>
    rw [tryDecimal, decimalOf, decimal?]
    cases Decimal.ofStr? s with
    | none => rfl
    | some d => rfl
  | .surrogates points, _ => rfl

theorem decimal?_of_isNone {value : Json} (h : value.isNone) : decimal? value = none := by
  match value, h with
  | .null, _ => rfl

/-- A size that is no number is passed over. -/
theorem sizeOf_text {data : Dict} (h : TextFields data) :
    sizeOf data = .ok (decimal? (sizeRaw data)) := by
  have hfield : ∀ value : Json, value.isNone ∨ (text? value).isSome →
      (if value.isNone then .ok none else tryDecimal value) = .ok (decimal? value) := by
    rintro value (hnone | htext)
    · rw [if_pos hnone, decimal?_of_isNone hnone]
    · by_cases hnone : value.isNone
      · rw [if_pos hnone, decimal?_of_isNone hnone]
      · rw [if_neg hnone, tryDecimal_text htext]
  refine hfield (sizeRaw data) ?_
  rw [sizeRaw]
  split
  · exact h.size
  · exact h.lastSize

/-- What a message says when it has a symbol, a price and a time. -/
def textFields (data : Dict) (msgType : Json) (price : Decimal) (time : Time) : Fields where
  symbol := Json.get data "product_id".toList
  price := price
  size := decimal? (sizeRaw data)
  side := sideOf (Json.get data "side".toList)
  exchangeTimestamp := time
  channel := if isType msgType "ticker" then "ticker".toList else "matches".toList

/-- What `normalize` reads of a message of text. -/
theorem fields_text {data : Dict} (h : TextFields data) (msgType : Json) (exchangeNow : Time) :
    fields data msgType exchangeNow =
      match text? (Json.get data "product_id".toList), priceOf data with
      | some _, some price =>
        (exchangeTimestampOf (Json.get data "time".toList) exchangeNow).map fun time ↦
          some (textFields data msgType price time)
      | _, _ => .ok none := by
  rw [fields, sizeOf_text h]
  dsimp only
  rcases h.symbol with hsymbol | hsymbol
  · rw [text?_of_isNone hsymbol, hsymbol]
    rfl
  · obtain ⟨symbol, hsymbol⟩ := Option.isSome_iff_exists.mp hsymbol
    rcases h.price with hprice | hprice
    · rw [priceOf, decimal?_of_isNone hprice, hprice, Bool.or_true]
      cases text? (Json.get data "product_id".toList) with
      | none => rfl
      | some symbol => rfl
    · rw [isNone_of_text (hsymbol ▸ rfl), isNone_of_text hprice, hsymbol, tryDecimal_text hprice,
        priceOf]
      cases decimal? (Json.get data "price".toList) with
      | none => rfl
      | some price =>
        cases exchangeTimestampOf (Json.get data "time".toList) exchangeNow with
        | error e => rfl
        | ok time => rfl

/-! ## What `Tick` takes -/

/-- `Decimal.is_finite`. -/
def isFinite : Decimal → Bool
  | .finite _ => true
  | _ => false

/-- The size of the tick: the number the message gives, where it gives a finite one. -/
def usableSize (data : Dict) : Option ℚ :=
  match decimal? (sizeRaw data) with
  | some (.finite q) => some q
  | _ => none

/-- `Tick` takes finite numbers. -/
theorem tickOf_finite {symbol : Str} {f : Fields} (price : ℚ) (size : Option ℚ)
    (hprice : f.price = .finite price) (hsize : f.size = size.map .finite) (sequence : ℕ)
    (ingestNow : Time) :
    tickOf symbol sequence f ingestNow = .ok {
      symbol, sequence, price, size
      side := f.side
      exchange := .coinbase
      channel := f.channel
      exchangeTimestamp := f.exchangeTimestamp
      ingestTimestamp := ingestNow
      encodable := isEncodable f.symbol } := by
  rw [tickOf, hprice, hsize]
  cases size with
  | none => rfl
  | some q => rfl

/-- `Tick` refuses the others. -/
theorem tickOf_refuses {symbol : Str} {f : Fields}
    (h : isFinite f.price = false ∨ ∃ d, f.size = some d ∧ isFinite d = false) (sequence : ℕ)
    (ingestNow : Time) : tickOf symbol sequence f ingestNow = .error .validationError := by
  have hrefuses : ∀ d, isFinite d = false → finiteDecimal d = .error .validationError := by
    intro d hd
    cases d with
    | finite q => cases hd
    | infinite => rfl
    | nan => rfl
  rw [tickOf]
  by_cases hprice : isFinite f.price = false
  · rw [hrefuses _ hprice]
    rfl
  · obtain ⟨d, hsize, hd⟩ := h.resolve_left hprice
    have hmap : f.size.mapM finiteDecimal = .error .validationError := by
      rw [hsize]
      show (do return some (← finiteDecimal d) : Except NormalizeError (Option ℚ)) = _
      rw [hrefuses d hd]
      rfl
    cases hfinite : f.price with
    | finite q =>
      rw [hmap]
      rfl
    | infinite => exact absurd (by rw [hfinite]; rfl) hprice
    | nan => exact absurd (by rw [hfinite]; rfl) hprice

/-- When `Tick` takes the numbers of a message. -/
theorem tickOf_returns_iff {symbol : Str} {f : Fields} {sequence : ℕ} {ingestNow : Time} :
    (∃ tick, tickOf symbol sequence f ingestNow = .ok tick) ↔
      isFinite f.price ∧ f.size.all isFinite := by
  constructor
  · rintro ⟨tick, htick⟩
    have hfinite : ¬ (isFinite f.price = false ∨ ∃ d, f.size = some d ∧ isFinite d = false) := by
      intro hrefused
      rw [tickOf_refuses hrefused] at htick
      cases htick
    rw [not_or, not_exists] at hfinite
    refine ⟨by simpa using hfinite.1, (Option.all_eq_true _ _).mpr fun d hd ↦ ?_⟩
    simpa using fun hfalse ↦ hfinite.2 d ⟨hd, hfalse⟩
  · rintro ⟨hprice, hsize⟩
    match hfprice : f.price, hprice with
    | .finite price, _ =>
      match hfsize : f.size, hsize with
      | none, _ => exact ⟨_, tickOf_finite _ none hfprice hfsize sequence ingestNow⟩
      | some (.finite q), _ =>
        exact ⟨_, tickOf_finite _ (some q) hfprice hfsize sequence ingestNow⟩

/-! ## The whole call -/

/-- **`normalize` on a message of text.** -/
theorem normalize_text {data : Dict} (h : TextFields data) (sequences : Str → ℕ) (msgType : Json)
    (exchangeNow ingestNow : Time) :
    normalize sequences data msgType exchangeNow ingestNow =
      match text? (Json.get data "product_id".toList), priceOf data with
      | some symbol, some price =>
        match exchangeTimestampOf (Json.get data "time".toList) exchangeNow with
        | .error e => (.error e, sequences)
        | .ok time =>
          ((tickOf symbol (sequences symbol + 1) (textFields data msgType price time)
              ingestNow).map some,
            Function.update sequences symbol (sequences symbol + 1))
      | _, _ => (.ok none, sequences) := by
  rw [normalize, fields_text h]
  cases hsymbol : text? (Json.get data "product_id".toList) with
  | none => rfl
  | some symbol =>
    cases priceOf data with
    | none => rfl
    | some price =>
      cases exchangeTimestampOf (Json.get data "time".toList) exchangeNow with
      | error e => rfl
      | ok time =>
        simp only [Except.map, numberTick, textFields, hsymbol]

/-- The time is in ISO format, if there is one. -/
def WellTimed (data : Dict) : Prop :=
  (Json.get data "time".toList).truthy →
    ∃ time, parseExchangeTimestamp (Json.get data "time".toList) = .ok time

/-- When reading a time returns. -/
theorem exchangeTimestampOf_returns_iff {value : Json} {now : Time} :
    (∃ time, exchangeTimestampOf value now = .ok time) ↔
      (value.truthy → ∃ time, parseExchangeTimestamp value = .ok time) := by
  rw [exchangeTimestampOf]
  by_cases htruthy : value.truthy
  · rw [if_pos htruthy]
    exact ⟨fun h _ ↦ h, fun h ↦ h htruthy⟩
  · rw [if_neg htruthy]
    exact iff_of_true ⟨now, rfl⟩ fun h ↦ absurd h htruthy

/-- A message that says enough for a tick says it properly: the price and the size, where they are
numbers, are finite, the time, where there is one, is in ISO format, and the symbol can be
encoded. -/
def Harmless (data : Dict) : Prop :=
  ∀ symbol price, text? (Json.get data "product_id".toList) = some symbol →
    priceOf data = some price → isFinite price ∧
      (∀ size, decimal? (sizeRaw data) = some size → isFinite size) ∧ WellTimed data ∧
        isEncodable (Json.get data "product_id".toList)

/-- Where the message is harmless, the numbers in it are those of its tick. -/
theorem Harmless.size_eq {data : Dict}
    (h : ∀ size, decimal? (sizeRaw data) = some size → isFinite size) :
    decimal? (sizeRaw data) = (usableSize data).map .finite := by
  rw [usableSize]
  cases hsize : decimal? (sizeRaw data) with
  | none => rfl
  | some d =>
    match d, h d hsize with
    | .finite q, _ => rfl

/-! ## Without the size -/

/-- The items under other keys. -/
def without (a b : Str) (data : Dict) : Dict := data.filter fun item ↦ item.1 ≠ a ∧ item.1 ≠ b

theorem get_without {a b : Str} {data : Dict} {key : Str} (ha : key ≠ a) (hb : key ≠ b) :
    Json.get (without a b data) key = Json.get data key := by
  have htest : (fun item : Str × Json ↦
      decide (decide (item.1 ≠ a ∧ item.1 ≠ b) = true ∧ decide (item.1 = key) = true)) =
        fun item ↦ decide (item.1 = key) := by
    funext item
    by_cases hkey : item.1 = key
    · simp [hkey, ha, hb]
    · simp [hkey]
  rw [Json.get, Json.get, without, ← List.filter_reverse, List.find?_filter, htest]

theorem get_without_eq_null {a b : Str} {data : Dict} {key : Str} (h : key = a ∨ key = b) :
    Json.get (without a b data) key = .null := by
  have hnone : (without a b data).reverse.find? (fun item ↦ item.1 = key) = none := by
    refine List.find?_eq_none.mpr fun item hitem ↦ ?_
    have hother := of_decide_eq_true (List.mem_filter.mp (List.mem_reverse.mp hitem)).2
    rw [decide_eq_true_eq]
    rintro rfl
    rcases h with h | h
    · exact hother.1 h
    · exact hother.2 h
  rw [Json.get, hnone]

/-- The message without its size. -/
def withoutSize (data : Dict) : Dict := without "size".toList "last_size".toList data

theorem TextFields.withoutSize {data : Dict} (h : TextFields data) :
    TextFields (withoutSize data) := by
  have hkept : ∀ key : String, key.toList ≠ "size".toList → key.toList ≠ "last_size".toList →
      TextField data key → TextField (PostTrade.withoutSize data) key := by
    intro key ha hb hfield
    rw [TextField, PostTrade.withoutSize, get_without ha hb]
    exact hfield
  have hgone : ∀ key : String, key.toList = "size".toList ∨ key.toList = "last_size".toList →
      TextField (PostTrade.withoutSize data) key := by
    intro key hkey
    refine .inl ?_
    rw [PostTrade.withoutSize, get_without_eq_null hkey]
    rfl
  exact ⟨hkept _ (by decide) (by decide) h.symbol, hkept _ (by decide) (by decide) h.price,
    hgone _ (.inl rfl), hgone _ (.inr rfl), hkept _ (by decide) (by decide) h.side,
    hkept _ (by decide) (by decide) h.time⟩

/-- Without its size the message says the same, but for the size. -/
theorem textFields_withoutSize (data : Dict) (msgType : Json) (price : Decimal) (time : Time) :
    textFields (withoutSize data) msgType price time =
      { textFields data msgType price time with size := none } := by
  have hsize : sizeRaw (withoutSize data) = .null := by
    rw [sizeRaw, withoutSize, get_without_eq_null (.inl rfl), get_without_eq_null (.inr rfl)]
    rfl
  have hside : Json.get (withoutSize data) "side".toList = Json.get data "side".toList :=
    get_without (by decide) (by decide)
  have hsymbol : Json.get (withoutSize data) "product_id".toList =
      Json.get data "product_id".toList :=
    get_without (by decide) (by decide)
  rw [textFields, hsize, hside, hsymbol]
  rfl

/-! ## Totality -/

/-- `normalize` is total on the message as a feed needs it: it never raises; a size that is no
finite number leaves the tick without a size, and changes nothing else; a call that yields no tick
draws no number; and the message does not end the loop, as long as redis answers. -/
structure Total (data : Dict) (msgType : Json) : Prop where
  returns : ∀ sequences exchangeNow ingestNow,
    ∃ tick, (normalize sequences data msgType exchangeNow ingestNow).1 = .ok tick
  sizeAlone : ∀ sequences sequences' exchangeNow ingestNow tick,
    normalize sequences (withoutSize data) msgType exchangeNow ingestNow
        = (.ok (some tick), sequences') →
      normalize sequences data msgType exchangeNow ingestNow
        = (.ok (some { tick with size := usableSize data }), sequences')
  unnumbered : ∀ sequences exchangeNow ingestNow,
    (∀ tick, (normalize sequences data msgType exchangeNow ingestNow).1 ≠ .ok (some tick)) →
      (normalize sequences data msgType exchangeNow ingestNow).2 = sequences
  continues : ∀ (ing : AsyncIngestor) (a : Arrival),
    a.xadd = .answered → (ing.normalizeAndPublish data a).1 = .ok ()

variable {data : Dict}

/-- A harmless message has a tick that can be published, or none. -/
theorem Harmless.returns (h : TextFields data) (hharmless : Harmless data) (sequences : Str → ℕ)
    (msgType : Json) (exchangeNow ingestNow : Time) :
    ∃ tick, (normalize sequences data msgType exchangeNow ingestNow).1 = .ok tick ∧
      ∀ t ∈ tick, t.encodable = true := by
  rw [normalize_text h]
  cases hsymbol : text? (Json.get data "product_id".toList) with
  | none => exact ⟨none, rfl, by simp⟩
  | some symbol =>
    cases hprice : priceOf data with
    | none => exact ⟨none, rfl, by simp⟩
    | some price =>
      obtain ⟨hfinite, hsize, htimed, hencodable⟩ := hharmless symbol price hsymbol hprice
      obtain ⟨time, htime⟩ := (@exchangeTimestampOf_returns_iff _ exchangeNow).mpr htimed
      match price, hfinite with
      | .finite q, _ =>
        dsimp only
        rw [htime]
        dsimp only
        rw [tickOf_finite q _ rfl (Harmless.size_eq hsize)]
        refine ⟨_, rfl, fun t ht ↦ ?_⟩
        obtain rfl := Option.mem_some_iff.mp ht
        exact hencodable

/-- Where the call returns at any time, the message is harmless if its tick can be published. -/
theorem harmless_of_returns (h : TextFields data) {msgType : Json} {exchangeNow ingestNow : Time}
    {sequences : Str → ℕ} {tick : Option Tick}
    (htick : (normalize sequences data msgType exchangeNow ingestNow).1 = .ok tick)
    (hencodable : ∀ t ∈ tick, t.encodable = true) : Harmless data := by
  intro symbol price hsymbol hprice
  rw [normalize_text h, hsymbol, hprice] at htick
  dsimp only at htick
  cases htime : exchangeTimestampOf (Json.get data "time".toList) exchangeNow with
  | error e =>
    rw [htime] at htick
    cases htick
  | ok time =>
    rw [htime] at htick
    dsimp only at htick
    obtain ⟨tick', htick', rfl⟩ := map_eq_ok.mp htick
    obtain ⟨hfinite, hsizes⟩ := tickOf_returns_iff.mp ⟨tick', htick'⟩
    exact ⟨hfinite, (Option.all_eq_true _ _).mp hsizes,
      exchangeTimestampOf_returns_iff.mp ⟨time, htime⟩,
      (tickOf_encodable htick').symm.trans (hencodable tick' rfl)⟩

/-- A size alone never prevents a tick. -/
theorem Harmless.sizeAlone (h : TextFields data) (hharmless : Harmless data)
    {sequences sequences' : Str → ℕ} {msgType : Json} {exchangeNow ingestNow : Time} {tick : Tick}
    (hbare : normalize sequences (withoutSize data) msgType exchangeNow ingestNow
      = (.ok (some tick), sequences')) :
    normalize sequences data msgType exchangeNow ingestNow
      = (.ok (some { tick with size := usableSize data }), sequences') := by
  have hsymbol' : Json.get (withoutSize data) "product_id".toList
      = Json.get data "product_id".toList := get_without (by decide) (by decide)
  have hprice' : priceOf (withoutSize data) = priceOf data := by
    rw [priceOf, priceOf, withoutSize, get_without (by decide) (by decide)]
  have htime' : Json.get (withoutSize data) "time".toList = Json.get data "time".toList :=
    get_without (by decide) (by decide)
  rw [normalize_text h.withoutSize, hsymbol', hprice', htime'] at hbare
  rw [normalize_text h]
  cases hsymbol : text? (Json.get data "product_id".toList) with
  | none =>
    rw [hsymbol] at hbare
    cases hbare
  | some symbol =>
    cases hprice : priceOf data with
    | none =>
      rw [hsymbol, hprice] at hbare
      cases hbare
    | some price =>
      obtain ⟨hfinite, hsize, htimed, -⟩ := hharmless symbol price hsymbol hprice
      obtain ⟨time, htime⟩ := (@exchangeTimestampOf_returns_iff _ exchangeNow).mpr htimed
      match price, hfinite with
      | .finite q, _ =>
        rw [hsymbol, hprice, htime] at hbare
        dsimp only at hbare
        rw [textFields_withoutSize, tickOf_finite q none rfl rfl] at hbare
        cases hbare
        rw [htime]
        dsimp only
        rw [tickOf_finite q _ rfl (Harmless.size_eq hsize)]
        rfl

/-- When a message does not end the loop. -/
theorem normalizeAndPublish_returns_iff {ing : AsyncIngestor} {a : Arrival}
    (hxadd : a.xadd = .answered) : (ing.normalizeAndPublish data a).1 = .ok () ↔
      ∃ tick, (normalize ing.sequences data (Json.get data "type".toList) a.exchangeNow
        a.ingestNow).1 = .ok tick ∧ ∀ t ∈ tick, t.encodable = true := by
  rw [AsyncIngestor.normalizeAndPublish]
  generalize normalize ing.sequences data _ a.exchangeNow a.ingestNow = normalized
  obtain ⟨_ | _ | tick, sequences⟩ := normalized
  · simp
  · simp
  · dsimp only
    rw [hxadd]
    by_cases hencodable : tick.encodable = true
    · rw [AsyncIngestor.publish_of_encodable hencodable]
      exact iff_of_true rfl ⟨some tick, rfl, by simpa using hencodable⟩
    · rw [AsyncIngestor.publish.eq_def, if_neg hencodable]
      refine iff_of_false (by rintro ⟨⟩) ?_
      rintro ⟨_, ⟨⟩, htick⟩
      exact hencodable (htick tick rfl)

/-- **When normalizing is total.**  On a message of text, `normalize` returns a tick or nothing, is
indifferent to a size it cannot use, numbers only what it returns and ends no run, exactly when the
message is harmless. -/
theorem normalize_total_iff (h : TextFields data) (msgType : Json) :
    Total data msgType ↔ Harmless data := by
  constructor
  · intro htotal
    have hcontinues := htotal.continues { symbols := [], onRawMessage := false, stream := {} }
      { raw := .text [], exchangeNow := 0, ingestNow := 0 } rfl
    obtain ⟨tick, htick, hencodable⟩ := (normalizeAndPublish_returns_iff rfl).mp hcontinues
    exact harmless_of_returns h htick hencodable
  · intro hharmless
    refine ⟨fun sequences exchangeNow ingestNow ↦ ?_,
      fun sequences sequences' exchangeNow ingestNow tick ↦ hharmless.sizeAlone h,
      fun sequences exchangeNow ingestNow hnone ↦ ?_, fun ing a hxadd ↦ ?_⟩
    · obtain ⟨tick, htick, -⟩ := hharmless.returns h sequences msgType exchangeNow ingestNow
      exact ⟨tick, htick⟩
    · obtain ⟨tick, htick, -⟩ := hharmless.returns h sequences msgType exchangeNow ingestNow
      cases tick with
      | none => exact normalize_none (Prod.ext htick rfl)
      | some tick => exact absurd htick (hnone tick)
    · exact (normalizeAndPublish_returns_iff hxadd).mpr (hharmless.returns h _ _ _ _)

/-- It is not where a call raises. -/
theorem not_total_of_error {msgType : Json} {sequences : Str → ℕ} {exchangeNow ingestNow : Time}
    {e : NormalizeError}
    (h : (normalize sequences data msgType exchangeNow ingestNow).1 = .error e) :
    ¬ Total data msgType := by
  intro htotal
  obtain ⟨tick, htick⟩ := htotal.returns sequences exchangeNow ingestNow
  rw [h] at htick
  cases htick

/-! ### Priced messages -/

/-- A match with a price and another field. -/
def pricedMatch (price field value : String) : Dict :=
  [("type".toList, .str "match".toList), ("product_id".toList, .str "BTC-USD".toList),
    ("price".toList, .str price.toList), (field.toList, .str value.toList)]

/-- A match whose symbol is a lone surrogate. -/
def surrogateMatch : Dict :=
  [("type".toList, .str "match".toList), ("product_id".toList, .surrogates [0xD800]),
    ("price".toList, .str "100".toList)]

/-- A size that is a word does no harm. -/
theorem normalize_total_of_word :
    Total (pricedMatch "100" "size" "much") (.str "match".toList) := by
  have htext : TextFields (pricedMatch "100" "size" "much") := by decide +kernel
  have hprice : priceOf (pricedMatch "100" "size" "much") = some (.finite 100) := by
    decide +kernel
  have hsize : decimal? (sizeRaw (pricedMatch "100" "size" "much")) = none := by decide +kernel
  have htime : (Json.get (pricedMatch "100" "size" "much") "time".toList).truthy = false := by
    decide +kernel
  refine (normalize_total_iff htext _).mpr fun symbol price _ hprice' ↦ ⟨?_, fun size hsize' ↦ ?_,
    fun htruthy ↦ ?_, by decide +kernel⟩
  · rw [hprice] at hprice'
    cases hprice'
    rfl
  · rw [hsize] at hsize'
    cases hsize'
  · rw [htime] at htruthy
    cases htruthy

/-- A time that is none, a price that is no number and a size beyond all numbers raise, the last two
with a number drawn.  A symbol that cannot be encoded has a tick, and ends the loop. -/
theorem normalize_raises :
    (TextFields (pricedMatch "100" "time" "soon") ∧
      (normalize (fun _ ↦ 0) (pricedMatch "100" "time" "soon") (.str "match".toList) 0 0).1 =
        .error .valueError ∧
      ¬ Total (pricedMatch "100" "time" "soon") (.str "match".toList)) ∧
    (TextFields (pricedMatch "NaN" "size" "1") ∧
      (normalize (fun _ ↦ 0) (pricedMatch "NaN" "size" "1") (.str "match".toList) 0 0).1 =
        .error .validationError ∧
      (normalize (fun _ ↦ 0) (pricedMatch "NaN" "size" "1") (.str "match".toList) 0 0).2
        "BTC-USD".toList = 1 ∧
      ¬ Total (pricedMatch "NaN" "size" "1") (.str "match".toList)) ∧
    (TextFields (pricedMatch "100" "size" "Infinity") ∧
      (normalize (fun _ ↦ 0) (pricedMatch "100" "size" "Infinity") (.str "match".toList) 0 0).1 =
        .error .validationError ∧
      ¬ Total (pricedMatch "100" "size" "Infinity") (.str "match".toList)) ∧
    (TextFields surrogateMatch ∧
      (normalize (fun _ ↦ 0) surrogateMatch (.str "match".toList) 0 0).1.isOk = true ∧
      (∀ ing a, (AsyncIngestor.normalizeAndPublish ing surrogateMatch a).1 =
        .error .serializationError) ∧
      ¬ Total surrogateMatch (.str "match".toList)) := by
  have htime : (normalize (fun _ ↦ 0) (pricedMatch "100" "time" "soon") (.str "match".toList) 0 0).1
      = .error .valueError := by decide +kernel
  have hprice : (normalize (fun _ ↦ 0) (pricedMatch "NaN" "size" "1") (.str "match".toList) 0 0).1
      = .error .validationError := by decide +kernel
  have hsize : (normalize (fun _ ↦ 0) (pricedMatch "100" "size" "Infinity")
      (.str "match".toList) 0 0).1 = .error .validationError := by decide +kernel
  have hsymbol : ∀ ing a, (AsyncIngestor.normalizeAndPublish ing surrogateMatch a).1 =
      .error .serializationError := fun ing a ↦ rfl
  refine ⟨⟨by decide +kernel, htime, not_total_of_error htime⟩,
    ⟨by decide +kernel, hprice, by decide +kernel, not_total_of_error hprice⟩,
    ⟨by decide +kernel, hsize, not_total_of_error hsize⟩, by decide +kernel, by decide +kernel,
    hsymbol, ?_⟩
  intro htotal
  have hcontinues := htotal.continues { symbols := [], onRawMessage := false, stream := {} }
    { raw := .text [], exchangeNow := 0, ingestNow := 0 } rfl
  rw [hsymbol] at hcontinues
  cases hcontinues

end PostTrade
