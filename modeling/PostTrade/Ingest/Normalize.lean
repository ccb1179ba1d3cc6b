import PostTrade.Models
import PostTrade.Lib.Json
import PostTrade.Lib.Datetime
import PostTrade.Lib.Numbering

/-!
# Normalizing a message of the feed

`AsyncIngestor.normalize`: from the dictionary of a message to a `Tick`, or to nothing.  The live
ingestor and the batch transform of the silver layer both call it.

A message may be well formed JSON and still hold anything under any key, so every field is a `Json`
until the source looks at it, and every way the source can fail on it is an error of its own.  The
number of the tick comes from the counter of its symbol, which advances before `Tick` has looked at
the price: a message can use up a number and raise.
-/

set_option autoImplicit false

namespace PostTrade

open Python

/-- The exceptions that building a tick from a message raises. -/
inductive NormalizeError
  | invalidOperation
  | valueError
  | overflowError
  | typeError
  | validationError
  deriving DecidableEq, Repr

theorem map_eq_ok {ε α β : Type*} {x : Except ε α} {f : α → β} {b : β} :
    x.map f = .ok b ↔ ∃ a, x = .ok a ∧ f a = b := by
  cases x with
  | error e => simp [Except.map]
  | ok a => simp [Except.map]

theorem bind_eq_ok {ε α β : Type*} {x : Except ε α} {f : α → Except ε β} {b : β} :
    x.bind f = .ok b ↔ ∃ a, x = .ok a ∧ f a = .ok b := by
  cases x with
  | error e => simp [Except.bind]
  | ok a => simp [Except.bind]

/-! ## `Decimal` of a value -/

/-- An integer that C can hold, which is what `Decimal` takes a sequence apart into. -/
def cLong : Json → Except NormalizeError ℤ
  | .int n => if -2 ^ 63 ≤ n ∧ n < 2 ^ 63 then .ok n else .error .overflowError
  | .bool b => .ok (if b then 1 else 0)
  | _ => .error .valueError

def decimalSign (value : Json) : Except NormalizeError ℤ := do
  let sign ← cLong value
  if sign = 0 then return 1
  else if sign = 1 then return -1
  else .error .valueError

def decimalDigit (value : Json) : Except NormalizeError ℕ := do
  let digit ← cLong value
  if 0 ≤ digit ∧ digit ≤ 9 then return digit.toNat else .error .valueError

def decimalDigits : Json → Except NormalizeError (List ℕ)
  | .list digits => digits.mapM decimalDigit
  | _ => .error .valueError

/-- `Decimal` of a sequence: sign, digits and exponent, or a letter for a special value. -/
def decimalOfSequence : List Json → Except NormalizeError Decimal
  | [sign, digits, .str special] => do
    let _ ← decimalSign sign
    if special ≠ "F".toList ∧ special ≠ "n".toList ∧ special ≠ "N".toList then .error .valueError
    else
      let _ ← decimalDigits digits
      return if special = "F".toList then .infinite else .nan
  | [sign, digits, exponent] => do
    let sign ← decimalSign sign
    let exponent ← cLong exponent
    let digits ← decimalDigits digits
    match Decimal.scaled? sign (if digits = [] then [0] else digits) exponent with
    | none => .error .invalidOperation
    | some d => return d
  | _ => .error .valueError

/-- `Decimal(value)`. -/
def decimalOf : Json → Except NormalizeError Decimal
  | .null | .dict _ => .error .typeError
  | .bool b => .ok (.finite (if b then 1 else 0))
  | .int n => .ok (.finite n)
  | .float x => .ok x
  | .str s =>
    match Decimal.ofStr? s with
    | none => .error .invalidOperation
    | some d => .ok d
  | .surrogates _ => .error .invalidOperation
  | .list elements => decimalOfSequence elements

/-- `Decimal(value)`, where the source catches `InvalidOperation`. -/
def tryDecimal (value : Json) : Except NormalizeError (Option Decimal) :=
  match decimalOf value with
  | .ok d => .ok (some d)
  | .error .invalidOperation => .ok none
  | .error e => .error e

/-! ## The fields of a message -/

/-- The items of a JSON object. -/
abbrev Dict := List (Str × Json)

/-- The text of a value that is a string.  A surrogate in it reads as the replacement character: its
tick is never written, so that nothing comes of two such symbols sharing a counter. -/
def text? : Json → Option Str
  | .str s => some s
  | .surrogates points => some (Json.characters points)
  | _ => none

/-- UTF-8 can encode the value if it is a string. -/
def isEncodable : Json → Bool
  | .surrogates _ => false
  | _ => true

/-- What a message says, as far as `normalize` has converted it when it numbers the tick. -/
structure Fields where
  symbol : Json
  price : Decimal
  size : Option Decimal
  side : Option Side
  exchangeTimestamp : Time
  channel : Str

/-- `data.get("size") or data.get("last_size")`, as a decimal where it is one. -/
def sizeOf (data : Dict) : Except NormalizeError (Option Decimal) :=
  let size := Json.get data "size".toList
  let sizeRaw := if size.truthy then size else Json.get data "last_size".toList
  if sizeRaw.isNone then .ok none else tryDecimal sizeRaw

/-- `Side(side_raw) if side_raw in ("buy", "sell") else None`. -/
def sideOf : Json → Option Side
  | .str s =>
    if s = Side.buy.value then some .buy
    else if s = Side.sell.value then some .sell
    else none
  | _ => none

/-- `_parse_exchange_timestamp`. -/
def parseExchangeTimestamp : Json → Except NormalizeError Time
  | .str s => (Datetime.fromisoformat? s).elim (.error .valueError) .ok
  | .surrogates points => (Datetime.fromCodePoints? points).elim (.error .valueError) .ok
  | _ => .error .typeError

/-- The `time` of a message, or the clock where the message has none. -/
def exchangeTimestampOf (exchTsRaw : Json) (now : Time) : Except NormalizeError Time :=
  if exchTsRaw.truthy then parseExchangeTimestamp exchTsRaw else .ok now

/-- `msg_type == name`. -/
def isType (msgType : Json) (name : String) : Bool :=
  match msgType with
  | .str s => s = name.toList
  | _ => false

/-- `normalize` before the number is drawn; `none` where it returns `None`. -/
def fields (data : Dict) (msgType : Json) (exchangeNow : Time) :
    Except NormalizeError (Option Fields) :=
  let symbol := Json.get data "product_id".toList
  let priceRaw := Json.get data "price".toList
  if symbol.isNone || priceRaw.isNone then .ok none
  else do
    match ← tryDecimal priceRaw with
    | none => return none
    | some price =>
      let size ← sizeOf data
      let side := sideOf (Json.get data "side".toList)
      let exchangeTimestamp ← exchangeTimestampOf (Json.get data "time".toList) exchangeNow
      let channel := if isType msgType "ticker" then "ticker".toList else "matches".toList
      return some { symbol, price, size, side, exchangeTimestamp, channel }

/-! ## Ticks -/

/-- A decimal field of `Tick`: pydantic takes finite numbers only. -/
def finiteDecimal : Decimal → Except NormalizeError ℚ
  | .finite q => .ok q
  | _ => .error .validationError

/-- `Tick(...)`. -/
def tickOf (symbol : Str) (sequence : ℕ) (f : Fields) (ingestNow : Time) :
    Except NormalizeError Tick := do
  let price ← finiteDecimal f.price
  let size ← f.size.mapM finiteDecimal
  return {
    symbol, sequence, price, size
    side := f.side
    exchange := .coinbase
    channel := f.channel
    exchangeTimestamp := f.exchangeTimestamp
    ingestTimestamp := ingestNow
    encodable := isEncodable f.symbol }

/-- `next(self._sequences[symbol])`, and the tick with that number. -/
def numberTick (sequences : Str → ℕ) (f : Fields) (ingestNow : Time) :
    Except NormalizeError Tick × (Str → ℕ) :=
  match text? f.symbol with
  | some symbol =>
    let sequence := sequences symbol + 1
    (tickOf symbol sequence f ingestNow, Function.update sequences symbol sequence)
  | none =>
    match f.symbol with
    -- no key of a dictionary
    | .list _ | .dict _ => (.error .typeError, sequences)
    -- a key like any other, but not the symbol of a tick
    | _ => (.error .validationError, sequences)

/-- `normalize`, with the counters before and after. -/
def normalize (sequences : Str → ℕ) (data : Dict) (msgType : Json)
    (exchangeNow ingestNow : Time) : Except NormalizeError (Option Tick) × (Str → ℕ) :=
  match fields data msgType exchangeNow with
  | .error e => (.error e, sequences)
  | .ok none => (.ok none, sequences)
  | .ok (some f) =>
    let (tick, sequences) := numberTick sequences f ingestNow
    (tick.map some, sequences)

/-! ## What a call does -/

/-- The tick `Tick(...)` returns has the symbol, the number and the exchange time it was given. -/
theorem tickOf_ok {symbol : Str} {sequence : ℕ} {f : Fields} {ingestNow : Time} {tick : Tick}
    (h : tickOf symbol sequence f ingestNow = .ok tick) :
    tick.symbol = symbol ∧ tick.sequence = sequence ∧
      tick.exchangeTimestamp = f.exchangeTimestamp := by
  obtain ⟨price, -, h⟩ := bind_eq_ok.mp h
  obtain ⟨size, -, h⟩ := bind_eq_ok.mp h
  cases h
  exact ⟨rfl, rfl, rfl⟩

theorem tickOf_encodable {symbol : Str} {sequence : ℕ} {f : Fields} {ingestNow : Time} {tick : Tick}
    (h : tickOf symbol sequence f ingestNow = .ok tick) :
    tick.encodable = isEncodable f.symbol := by
  obtain ⟨price, -, h⟩ := bind_eq_ok.mp h
  obtain ⟨size, -, h⟩ := bind_eq_ok.mp h
  cases h
  rfl

/-- A string that can be encoded is one of characters. -/
theorem eq_str_of_isEncodable {value : Json} {s : Str} (h : text? value = some s)
    (hencodable : isEncodable value = true) : value = .str s := by
  match value, h with
  | .str _, h => rw [Option.some.inj h]

/-- No tick comes of a symbol that is no string. -/
theorem numberTick_ne_ok {sequences : Str → ℕ} {f : Fields} {ingestNow : Time} {tick : Tick}
    (h : text? f.symbol = none) : (numberTick sequences f ingestNow).1 ≠ .ok tick := by
  rw [numberTick, h]
  cases f.symbol with
  | _ =>
    intro h
    cases h

/-- When a call returns a tick: the message is well formed, its symbol is a string, and `Tick` takes
the values with the next number of the symbol. -/
theorem normalize_eq_ok_iff {sequences : Str → ℕ} {data : Dict} {msgType : Json}
    {exchangeNow ingestNow : Time} {tick : Tick} {sequences' : Str → ℕ} :
    normalize sequences data msgType exchangeNow ingestNow = (.ok (some tick), sequences') ↔
      ∃ f symbol, fields data msgType exchangeNow = .ok (some f) ∧ text? f.symbol = some symbol ∧
        tickOf symbol (sequences symbol + 1) f ingestNow = .ok tick ∧
        sequences' = Function.update sequences symbol (sequences symbol + 1) := by
  rw [normalize]
  constructor
  · intro h
    split at h
    · cases h
    · cases h
    · rename_i f hf
      cases hsymbol : text? f.symbol with
      | some symbol =>
        simp only [numberTick, hsymbol] at h
        cases htick : tickOf symbol (sequences symbol + 1) f ingestNow with
        | error e => simp [htick, Except.map] at h
        | ok t =>
          simp only [htick, Except.map, Prod.mk.injEq, Except.ok.injEq, Option.some.injEq] at h
          obtain ⟨rfl, rfl⟩ := h
          exact ⟨f, symbol, hf, hsymbol, htick, rfl⟩
      | none =>
        obtain ⟨t, htick, -⟩ := map_eq_ok.mp (congrArg Prod.fst h)
        exact absurd htick (numberTick_ne_ok hsymbol)
  · rintro ⟨f, symbol, hf, hsymbol, htick, rfl⟩
    simp only [hf, numberTick, hsymbol, htick, Except.map]

/-- A call that returns a tick has drawn the next number of its symbol for it. -/
theorem normalize_ok {sequences sequences' : Str → ℕ} {data : Dict} {msgType : Json}
    {exchangeNow ingestNow : Time} {tick : Tick}
    (h : normalize sequences data msgType exchangeNow ingestNow = (.ok (some tick), sequences')) :
    tick.sequence = sequences tick.symbol + 1 ∧
      sequences' = Function.update sequences tick.symbol (sequences tick.symbol + 1) := by
  obtain ⟨f, symbol, -, -, htick, rfl⟩ := normalize_eq_ok_iff.mp h
  obtain ⟨rfl, hsequence, -⟩ := tickOf_ok htick
  exact ⟨by rw [hsequence]; push_cast; rfl, rfl⟩

/-- A call that returns nothing has drawn no number. -/
theorem normalize_none {sequences sequences' : Str → ℕ} {data : Dict} {msgType : Json}
    {exchangeNow ingestNow : Time}
    (h : normalize sequences data msgType exchangeNow ingestNow = (.ok none, sequences')) :
    sequences' = sequences := by
  rw [normalize] at h
  split at h
  · cases h
  · cases h
    rfl
  · rename_i f hf
    cases htick : (numberTick sequences f ingestNow).1 with
    | error e => simp [htick, Except.map] at h
    | ok tick => simp [htick, Except.map] at h

/-- The fields of a message that says enough for a tick. -/
theorem fields_some {data : Dict} {msgType : Json} {now : Time} {f : Fields}
    (h : fields data msgType now = .ok (some f)) :
    tryDecimal (Json.get data "price".toList) = .ok (some f.price) ∧ sizeOf data = .ok f.size ∧
      exchangeTimestampOf (Json.get data "time".toList) now = .ok f.exchangeTimestamp ∧
      f.symbol = Json.get data "product_id".toList := by
  rw [fields] at h
  dsimp only at h
  split at h
  · cases h
  · obtain ⟨price, hprice, h⟩ := bind_eq_ok.mp h
    cases price with
    | none => cases h
    | some price =>
      obtain ⟨size, hsize, h⟩ := bind_eq_ok.mp h
      obtain ⟨time, htime, h⟩ := bind_eq_ok.mp h
      cases h
      exact ⟨hprice, hsize, htime, rfl⟩

/-! ## What a call does not depend on -/

/-- The message carries a time. -/
def carriesTime (data : Dict) : Bool := (Json.get data "time".toList).truthy

/-- The clock decides nothing but the exchange time itself, and that only where the message carries
none. -/
theorem exchangeTimestampOf_ok {exchTsRaw : Json} {now t : Time}
    (h : exchangeTimestampOf exchTsRaw now = .ok t) (now' : Time) :
    ∃ t', exchangeTimestampOf exchTsRaw now' = .ok t' ∧ (exchTsRaw.truthy = true → t' = t) := by
  unfold exchangeTimestampOf at h ⊢
  by_cases htruthy : exchTsRaw.truthy
  · rw [if_pos htruthy] at h ⊢
    exact ⟨t, h, fun _ ↦ rfl⟩
  · exact ⟨now', if_neg htruthy, fun h ↦ absurd h htruthy⟩

/-- At another time the same fields are read, but for the exchange time. -/
theorem fields_ok {data : Dict} {msgType : Json} {now : Time} {f : Fields}
    (h : fields data msgType now = .ok (some f)) (now' : Time) :
    ∃ t', fields data msgType now' = .ok (some { f with exchangeTimestamp := t' }) ∧
      (carriesTime data = true → t' = f.exchangeTimestamp) := by
  unfold fields at h ⊢
  rw [carriesTime]
  generalize Json.get data "product_id".toList = symbol at h ⊢
  generalize Json.get data "price".toList = priceRaw at h ⊢
  generalize Json.get data "time".toList = exchTsRaw at h ⊢
  by_cases hnone : symbol.isNone || priceRaw.isNone
  · rw [if_pos hnone] at h
    cases h
  · rw [if_neg hnone] at h ⊢
    obtain ⟨price, hprice, h⟩ := bind_eq_ok.mp h
    cases price with
    | none => cases h
    | some price =>
      obtain ⟨size, hsize, h⟩ := bind_eq_ok.mp h
      obtain ⟨time, htime, h⟩ := bind_eq_ok.mp h
      obtain ⟨t', ht', hsame⟩ := exchangeTimestampOf_ok htime now'
      cases h
      rw [hprice, hsize, ht']
      exact ⟨t', rfl, hsame⟩

/-- Whether `Tick` takes the values depends on the price and the size only. -/
theorem tickOf_eq {symbol : Str} {sequence : ℕ} {f : Fields} {ingestNow : Time} {tick : Tick}
    (h : tickOf symbol sequence f ingestNow = .ok tick) (sequence' : ℕ) (t' ingestNow' : Time) :
    tickOf symbol sequence' { f with exchangeTimestamp := t' } ingestNow' = .ok { tick with
      sequence := sequence', exchangeTimestamp := t', ingestTimestamp := ingestNow' } := by
  obtain ⟨price, hprice, h⟩ := bind_eq_ok.mp h
  obtain ⟨size, hsize, h⟩ := bind_eq_ok.mp h
  cases h
  rw [tickOf, hprice, hsize]
  rfl

/-- The number decides neither whether there is a tick nor whether it can be written. -/
theorem tickOf_encodable_eq (symbol : Str) (sequence sequence' : ℕ) (f : Fields)
    (ingestNow : Time) :
    (tickOf symbol sequence f ingestNow).map Tick.encodable =
      (tickOf symbol sequence' f ingestNow).map Tick.encodable := by
  rw [tickOf, tickOf]
  cases finiteDecimal f.price with
  | error e => rfl
  | ok price =>
    cases f.size.mapM finiteDecimal with
    | error e => rfl
    | ok size => rfl

/-- The counters decide nothing but the number of the tick: neither whether there is one, nor
whether it can be written. -/
theorem normalize_encodable (sequences sequences' : Str → ℕ) (data : Dict) (msgType : Json)
    (exchangeNow ingestNow : Time) :
    (normalize sequences data msgType exchangeNow ingestNow).1.map (Option.map Tick.encodable) =
      (normalize sequences' data msgType exchangeNow ingestNow).1.map
        (Option.map Tick.encodable) := by
  have hsome : ∀ result : Except NormalizeError Tick,
      (result.map some).map (Option.map Tick.encodable) = (result.map Tick.encodable).map some := by
    intro result
    cases result with
    | error e => rfl
    | ok tick => rfl
  rw [normalize, normalize]
  cases fields data msgType exchangeNow with
  | error e => rfl
  | ok f =>
    cases f with
    | none => rfl
    | some f =>
      simp only [numberTick]
      cases text? f.symbol with
      | some symbol =>
        show ((tickOf symbol _ f ingestNow).map some).map (Option.map Tick.encodable) =
          ((tickOf symbol _ f ingestNow).map some).map (Option.map Tick.encodable)
        rw [hsome, hsome,
          tickOf_encodable_eq symbol (sequences symbol + 1) (sequences' symbol + 1)]
      | none =>
        cases f.symbol with
        | _ => rfl

/-- **What a message is worth does not depend on when and after what it is normalized.**  With other
counters and another clock a call returns the same tick, but for its number and its times, of which
the exchange time is the same too where the message carries one. -/
theorem normalize_eq {sequences sequences₁ : Str → ℕ} {data : Dict} {msgType : Json}
    {exchangeNow ingestNow : Time} {tick : Tick}
    (h : normalize sequences data msgType exchangeNow ingestNow = (.ok (some tick), sequences₁))
    (sequences' : Str → ℕ) (exchangeNow' ingestNow' : Time) :
    ∃ t', normalize sequences' data msgType exchangeNow' ingestNow' =
      (.ok (some { tick with
        sequence := sequences' tick.symbol + 1
        exchangeTimestamp := t'
        ingestTimestamp := ingestNow' }),
      Function.update sequences' tick.symbol (sequences' tick.symbol + 1)) ∧
      (carriesTime data = true → t' = tick.exchangeTimestamp) := by
  obtain ⟨f, symbol, hf, hsymbol, htick, -⟩ := normalize_eq_ok_iff.mp h
  obtain ⟨t', hf', hsame⟩ := fields_ok hf exchangeNow'
  obtain ⟨rfl, -, htime⟩ := tickOf_ok htick
  refine ⟨t', normalize_eq_ok_iff.mpr ⟨_, tick.symbol, hf', hsymbol, ?_, rfl⟩, fun h ↦ ?_⟩
  · rw [tickOf_eq htick]
    push_cast
    rfl
  · rw [hsame h, htime]

/-- What is worth no tick at one time is worth none at any time. -/
theorem normalize_ne_some {sequences sequences₁ : Str → ℕ} {data : Dict} {msgType : Json}
    {exchangeNow ingestNow : Time}
    (h : normalize sequences data msgType exchangeNow ingestNow = (.ok none, sequences₁))
    (sequences' : Str → ℕ) (exchangeNow' ingestNow' : Time) (tick : Tick) :
    (normalize sequences' data msgType exchangeNow' ingestNow').1 ≠ .ok (some tick) := by
  intro hok
  obtain ⟨t', heq, -⟩ := normalize_eq (Prod.ext hok rfl) sequences exchangeNow ingestNow
  rw [heq] at h
  cases h

end PostTrade
