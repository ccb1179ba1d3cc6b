import PostTrade.Lib.Decimal

/-!
# `datetime.fromisoformat`

The reader of ISO 8601 dates and times of Python's standard library, as its C implementation (3.11
and 3.12) reads the octets of a text: calendar dates and week dates with or without dashes, any one
character between date and time, times down to a fraction of a second, and an offset.  It takes more
than the standard has, such as a stray character before the offset.

The result is the instant in microseconds since the epoch.  A text without an offset is taken as
UTC.  What is not a date or time is a `ValueError`, here `none`.
-/

set_option autoImplicit false

namespace Python

namespace Datetime

/-! ## The calendar -/

def isLeap (year : ℕ) : Bool := year % 4 = 0 && (year % 100 ≠ 0 || year % 400 = 0)

def daysInMonth (year month : ℕ) : ℕ :=
  if month = 2 then if isLeap year then 29 else 28
  else if month ∈ [4, 6, 9, 11] then 30
  else 31

/-- The days before the first of January of a year, from that of year one on. -/
def daysBeforeYear (year : ℕ) : ℤ :=
  let y : ℤ := year - 1
  y * 365 + y / 4 - y / 100 + y / 400

def daysBeforeMonth (year month : ℕ) : ℕ :=
  ((List.range (month - 1)).map fun m ↦ daysInMonth year (m + 1)).sum

/-- The number of a day; the first of January of year one has number 1. -/
def toOrdinal (year month day : ℕ) : ℤ := daysBeforeYear year + daysBeforeMonth year month + day

/-- The number of the first of January 1970. -/
def epoch : ℤ := 719163

/-- A calendar date that exists. -/
def ofCalendar? (year month day : ℕ) : Option ℤ :=
  if 1 ≤ year ∧ year ≤ 9999 ∧ 1 ≤ month ∧ month ≤ 12 ∧ 1 ≤ day ∧ day ≤ daysInMonth year month then
    some (toOrdinal year month day)
  else none

/-- The Monday of the first week of a year. -/
def isoWeek1Monday (year : ℕ) : ℤ :=
  let firstDay := toOrdinal year 1 1
  let firstWeekday := (firstDay + 6) % 7
  let monday := firstDay - firstWeekday
  if firstWeekday > 3 then monday + 7 else monday

/-- A day of a week that exists.  Week 53 exists in years that begin on a Thursday, and in leap
years that begin on a Wednesday. -/
def ofIsoWeek? (year week day : ℕ) : Option ℤ :=
  let firstWeekday := toOrdinal year 1 1 % 7
  let long : Bool := firstWeekday = 4 || (firstWeekday = 3 && isLeap year)
  if 1 ≤ year ∧ year ≤ 9999 ∧ (1 ≤ week ∧ week < 53 ∨ week = 53 ∧ long) ∧ 1 ≤ day ∧ day < 8 then
    let ordinal := isoWeek1Monday year + (week - 1) * 7 + (day - 1)
    if 1 ≤ ordinal ∧ ordinal < daysBeforeYear 10000 + 1 then some ordinal else none
  else none

/-- The calendar date of a day (`_ord2ymd`). -/
def ofOrdinal (ordinal : ℤ) : ℕ × ℕ × ℕ :=
  let n := (ordinal - 1).toNat
  let (n400, n) := (n / 146097, n % 146097)
  let (n100, n) := (n / 36524, n % 36524)
  let (n4, n) := (n / 1461, n % 1461)
  let (n1, n) := (n / 365, n % 365)
  let year := n400 * 400 + n100 * 100 + n4 * 4 + n1 + 1
  if n1 = 4 ∨ n100 = 4 then (year - 1, 12, 31)
  else
    -- an estimate that is right or one too large
    let month := (n + 50) / 32
    let month := if daysBeforeMonth year month > n then month - 1 else month
    (year, month, n - daysBeforeMonth year month + 1)

/-! ## Writing -/

/-- The microseconds of a day. -/
def day : ℤ := 24 * 3600 * 1000000

/-- A number in two digits. -/
def twoDigits (n : ℕ) : List Char :=
  if n < 10 then '0' :: (Nat.repr n).toList else (Nat.repr n).toList

/-- `%Y-%m-%d` of an instant in UTC.  A year has no leading zeros, as with the C library. -/
def dateText (t : ℤ) : List Char :=
  let (year, month, dayOfMonth) := ofOrdinal (t / day + epoch)
  (Nat.repr year).toList ++ '-' :: twoDigits month ++ '-' :: twoDigits dayOfMonth

/-- `%H` of an instant in UTC. -/
def hourText (t : ℤ) : List Char := twoDigits (t % day / (3600 * 1000000)).toNat

example : (dateText 1767268801500000, hourText 1767268801500000) =
    ("2026-01-01".toList, "12".toList) := by decide +kernel

theorem isDigit_of_mem_repr {n : ℕ} {c : Char} (h : c ∈ (Nat.repr n).toList) : c.isDigit := by
  rw [Nat.repr, String.toList_ofList] at h
  exact Nat.isDigit_of_mem_toDigits (by decide) (by decide) h

theorem isDigit_of_mem_twoDigits {n : ℕ} {c : Char} (h : c ∈ twoDigits n) : c.isDigit := by
  rw [twoDigits] at h
  split at h
  · rcases List.mem_cons.mp h with rfl | h
    · rfl
    · exact isDigit_of_mem_repr h
  · exact isDigit_of_mem_repr h

/-- A date is written in digits and dashes. -/
theorem not_mem_dateText {c : Char} (hdigit : c.isDigit = false) (hdash : c ≠ '-') (t : ℤ) :
    c ∉ dateText t := by
  have hrepr : ∀ n, c ∉ (Nat.repr n).toList := fun n h ↦
    Bool.false_ne_true (hdigit.symm.trans (isDigit_of_mem_repr h))
  have htwo : ∀ n, c ∉ twoDigits n := fun n h ↦
    Bool.false_ne_true (hdigit.symm.trans (isDigit_of_mem_twoDigits h))
  simp only [dateText, List.mem_append, List.mem_cons, not_or]
  exact ⟨⟨hrepr _, hdash, htwo _⟩, hdash, htwo _⟩

theorem slash_not_mem_dateText (t : ℤ) : '/' ∉ dateText t :=
  not_mem_dateText (by decide) (by decide) t

theorem slash_not_mem_hourText (t : ℤ) : '/' ∉ hourText t :=
  fun h ↦ absurd (isDigit_of_mem_twoDigits h) (by decide)

/-- The date of an instant is that of its day. -/
theorem dateText_congr {t t' : ℤ} (h : t / day = t' / day) : dateText t = dateText t' := by
  rw [dateText, dateText, h]

theorem hour_lt (t : ℤ) : (t % day / (3600 * 1000000)).toNat < 24 := by
  have h0 := Int.emod_nonneg t (b := day) (by decide)
  have h1 := Int.emod_lt_of_pos t (b := day) (by decide)
  have : t % day / (3600 * 1000000) < 24 := by
    rw [day] at *
    omega
  omega

theorem length_hourText (t : ℤ) : (hourText t).length = 2 := by
  have htable : ∀ n : Fin 24, (twoDigits n).length = 2 := by decide +kernel
  exact htable ⟨_, hour_lt t⟩

/-- On one day the hours do not decrease. -/
theorem hourText_mono {t t' : ℤ} (hday : t / day = t' / day) (h : t ≤ t') :
    hourText t ≤ hourText t' := by
  have hmod : t % day ≤ t' % day := by
    have ht := Int.mul_ediv_add_emod t day
    have ht' := Int.mul_ediv_add_emod t' day
    rw [hday] at ht
    omega
  have htable : ∀ m n : Fin 24, m ≤ n → twoDigits m ≤ twoDigits n := by decide +kernel
  refine htable ⟨_, hour_lt t⟩ ⟨_, hour_lt t'⟩ ?_
  have := Int.ediv_le_ediv (c := 3600 * 1000000) (by decide) hmod
  show (t % day / (3600 * 1000000)).toNat ≤ (t' % day / (3600 * 1000000)).toNat
  omega

/-! ## Reading -/

/-- The octets of a text in UTF-8, each as the character of its number. -/
def octets (s : List Char) : List Char :=
  s.flatMap fun c ↦ (String.utf8EncodeChar c).map fun octet ↦ Char.ofNat octet.toNat

/-- The octet a pointer is at: past the end of the text that is the one that terminates it. -/
def octetAt (s : List Char) : Char := s.headD (Char.ofNat 0)

/-- A number of `n` digits at the start of a text, and the rest. -/
def number? (n : ℕ) (s : List Char) : Option (ℕ × List Char) :=
  let (digits, rest) := takeDigits (s.take n)
  if digits.length = n ∧ rest = [] then some (ofDigits digits, s.drop n) else none

/-- Where the date of a text ends. -/
def separatorLocation? (s : List Char) : Option ℕ :=
  let digitAt (i : ℕ) : Bool := (s[i]?.bind digit?).isSome
  if s.length = 7 then some 7
  else if s[4]? = some '-' then
    if s[5]? = some 'W' then
      if s.length > 8 ∧ s[8]? = some '-' then
        if s.length = 9 then none
        else if s.length > 10 ∧ digitAt 10 then some 8
        else some 10
      else some 8
    else some 10
  else if s[4]? = some 'W' then
    let index := 7 + (takeDigits (s.drop 7)).1.length
    if index < 9 then some index else if index % 2 = 0 then some 7 else some 8
  else some 8

/-- The date. -/
def date? (s : List Char) : Option ℤ := do
  let (year, rest) ← number? 4 s
  let hasSep := rest.head? = some '-'
  let rest := if hasSep then rest.drop 1 else rest
  if rest.head? = some 'W' then
    let (week, rest) ← number? 2 (rest.drop 1)
    if rest = [] then ofIsoWeek? year week 1
    else if (rest.head? = some '-') ≠ hasSep then none
    else
      let (day, rest) ← number? 1 (if hasSep then rest.drop 1 else rest)
      if rest = [] then ofIsoWeek? year week day else none
  else
    let (month, rest) ← number? 2 rest
    if (rest.head? = some '-') ≠ hasSep then none
    else
      let (day, rest) ← number? 2 (if hasSep then rest.drop 1 else rest)
      if rest = [] then ofCalendar? year month day else none

/-- A time as it is written: hours, minutes, seconds and microseconds. -/
structure Clock where
  hour : ℕ := 0
  minute : ℕ := 0
  second : ℕ := 0
  microsecond : ℕ := 0

/-- The microseconds that up to six of the first `n` octets are; the digits after them are dropped.
Reading stops there, and with the number comes whether it stopped short of the end of the text. -/
def microsecond? (n : ℕ) (s : List Char) : Option (ℕ × Bool) := do
  let (fraction, rest) ← number? (min n 6) s
  return (fraction * 10 ^ (6 - min n 6), octetAt (takeDigits rest).2 ≠ Char.ofNat 0)

/-- The parts of a time in the first `n` octets that are still to come, of which there are at most
as many as the first argument says, and whether reading stopped short of the end of the text.  One
octet after a part is passed over before it is looked at, also where the `n` octets end. -/
def parts? : ℕ → Bool → ℕ → List Char → Option (List ℕ × ℕ × Bool)
  | 0, _, n, s => do
    let (microsecond, more) ← microsecond? n s
    return ([], microsecond, more)
  | left + 1, hasSep, n, s => do
    let (part, rest) ← number? 2 s
    let c := octetAt rest
    -- whether there are separators is decided after the hours
    let hasSep := if left = 2 then c = ':' else hasSep
    if n ≤ 3 then return ([part], 0, c ≠ Char.ofNat 0)
    if hasSep ∧ c = ':' then
      let (parts, microsecond, more) ← parts? left hasSep (n - 3) (rest.drop 1)
      return (part :: parts, microsecond, more)
    if c = '.' ∨ c = ',' then
      let (microsecond, more) ← microsecond? (n - 3) (rest.drop 1)
      return ([part], microsecond, more)
    if hasSep then none
    let (parts, microsecond, more) ← parts? left hasSep (n - 2) rest
    return (part :: parts, microsecond, more)

/-- The time in the first `n` octets, and whether reading stopped short of the end of the text. -/
def hhMmSsFf? (n : ℕ) (s : List Char) : Option (Clock × Bool) := do
  let (parts, microsecond, more) ← parts? 3 true n s
  return ({
    hour := parts.getD 0 0
    minute := parts.getD 1 0
    second := parts.getD 2 0
    microsecond }, more)

/-- The seconds of a time or an offset. -/
def Clock.seconds (clock : Clock) : ℤ := (clock.hour * 60 + clock.minute) * 60 + clock.second

/-- The time: microseconds since midnight, and those of the offset.  What is left over between the
time and the offset is not looked at. -/
def time? (s : List Char) : Option (ℤ × ℤ) := do
  let zonePosition := s.findIdx (· ∈ ['+', '-', 'Z'])
  let (clock, more) ← hhMmSsFf? zonePosition s
  if 24 ≤ clock.hour ∨ 60 ≤ clock.minute ∨ 60 ≤ clock.second then none
  let microseconds := clock.seconds * 1000000 + clock.microsecond
  match s.drop zonePosition with
  | [] => if more then none else return (microseconds, 0)
  | 'Z' :: rest => if octetAt rest ≠ Char.ofNat 0 then none else return (microseconds, 0)
  | sign :: zone =>
    let (offset, more) ← hhMmSsFf? zone.length zone
    if more then none
    -- an offset of less than a second is none
    else if offset.seconds = 0 then return (microseconds, 0)
    else
      let offset := offset.seconds * 1000000 + offset.microsecond
      if offset < 24 * 3600 * 1000000 then
        return (microseconds, if sign = '-' then -offset else offset)
      else none

/-- `datetime.fromisoformat`, as the instant in microseconds since the epoch. -/
def fromisoformat? (text : List Char) : Option ℤ := do
  let s := octets text
  if text.length < 7 then none
  let location ← separatorLocation? s
  let day ← date? (s.take location)
  let midnight := (day - epoch) * (24 * 3600 * 1000000)
  if s.length ≤ location then return midnight
  -- the separator is one character, whatever its octets
  let separator := text[location]?.elim 1 Char.utf8Size
  let (clock, offset) ← time? (s.drop (location + separator))
  return midnight + clock - offset

/-- `datetime.fromisoformat` of code points, among which there is a lone surrogate: it can be read
where that is the separator, and then like any other. -/
def fromCodePoints? (points : List ℕ) : Option ℤ :=
  let isSurrogate (point : ℕ) : Bool := 0xD800 ≤ point && point ≤ 0xDFFF
  let points :=
    match [7, 8, 10].find? fun i ↦ points[i]?.any isSurrogate with
    | none => points
    | some i => points.set i 'T'.toNat
  if points.any isSurrogate then none else fromisoformat? (points.map Char.ofNat)

example : fromisoformat? "2026-01-01T12:00:01.5Z".toList = some 1767268801500000 := by
  decide +kernel

/-- One character may stand before the offset, and any number after six digits of a fraction. -/
example : (fromisoformat? "2026-01-01T12:00xZ".toList, fromisoformat? "2026-01-01T12:00x".toList,
    fromisoformat? "2026-01-01T12:00:01.500000 utc Z".toList) =
    (some 1767268800000000, none, some 1767268801500000) := by decide +kernel

end Datetime

end Python
