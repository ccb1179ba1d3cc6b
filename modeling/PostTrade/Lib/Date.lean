import PostTrade.Lib.Datetime
import PostTrade.Lib.Text

/-!
# `datetime.date`

The dates of Python's standard library: the days from the first of January of year one to the last
of December of year 9999, by their number.  A day past either end is an `OverflowError`, here
`none`.

The text of a date tells which date it is (`Date.isoformat_injective`): the calendar date of a day
gives back its number, and numbers with leading zeros are read back as what they were.
-/

set_option autoImplicit false

namespace Python

/-! ## Numbers with leading zeros -/

/-- A number in at least `width` digits. -/
def zeroPadded (width n : ℕ) : List Char :=
  let digits := Nat.toDigits 10 n
  List.replicate (width - digits.length) '0' ++ digits

theorem isDigit_of_mem_zeroPadded {width n : ℕ} {c : Char} (h : c ∈ zeroPadded width n) :
    c.isDigit := by
  rcases List.mem_append.mp h with h | h
  · rw [List.eq_of_mem_replicate h]
    rfl
  · exact Nat.isDigit_of_mem_toDigits (by decide) (by decide) h

/-- Leading zeros do not change the number read. -/
theorem ofDigitChars_zeroPadded (width n : ℕ) :
    Nat.ofDigitChars 10 (zeroPadded width n) 0 = n := by
  rw [zeroPadded, Nat.ofDigitChars_append, Nat.ofDigitChars_replicate_zero, Nat.mul_zero,
    Nat.ofDigitChars_ten_toDigits]

theorem zeroPadded_injective (width : ℕ) : Function.Injective (zeroPadded width) := by
  intro m n h
  rw [← ofDigitChars_zeroPadded width m, h, ofDigitChars_zeroPadded]

namespace Datetime

/-! ## The number of a calendar date -/

/-- The months before one have the same length in all leap years, and in all others. -/
theorem daysBeforeMonth_congr {year year' : ℕ} (h : isLeap year = isLeap year') (month : ℕ) :
    daysBeforeMonth year month = daysBeforeMonth year' month := by
  have hmonth : ∀ m, daysInMonth year m = daysInMonth year' m := by
    intro m
    rw [daysInMonth, daysInMonth, h]
  rw [daysBeforeMonth, daysBeforeMonth]
  simp only [hmonth]

/-- The estimated month is not past the day, or the one before it is not. -/
theorem daysBeforeMonth_le (year : ℕ) {n : ℕ} (hn : n < 365) :
    (if daysBeforeMonth year ((n + 50) / 32) > n then
      daysBeforeMonth year ((n + 50) / 32 - 1)
    else daysBeforeMonth year ((n + 50) / 32)) ≤ n := by
  have htable : ∀ year ∈ [1, 4], ∀ n < 365,
      (if daysBeforeMonth year ((n + 50) / 32) > n then
        daysBeforeMonth year ((n + 50) / 32 - 1)
      else daysBeforeMonth year ((n + 50) / 32)) ≤ n := by decide +kernel
  cases hleap : isLeap year with
  | false =>
    simp only [daysBeforeMonth_congr (hleap.trans (show false = isLeap 1 from rfl))]
    exact htable 1 (by decide) n hn
  | true =>
    simp only [daysBeforeMonth_congr (hleap.trans (show true = isLeap 4 from rfl))]
    exact htable 4 (by decide) n hn

/-- The days before a year, by the cycles of the calendar it comes after. -/
theorem daysBeforeYear_cycles (n400 : ℕ) {n100 n4 n1 : ℕ} (h100 : n100 ≤ 3) (h4 : n4 ≤ 24)
    (h1 : n1 ≤ 3) : daysBeforeYear (n400 * 400 + n100 * 100 + n4 * 4 + n1 + 1) =
      (n400 * 146097 + n100 * 36524 + n4 * 1461 + n1 * 365 : ℕ) := by
  rw [daysBeforeYear]
  push_cast
  omega

/-- The last day of a leap year is the last before the next year. -/
theorem toOrdinal_december_31 {year : ℕ} (hleap : isLeap year = true) :
    toOrdinal year 12 31 = daysBeforeYear (year + 1) := by
  have hmonth : daysBeforeMonth year 12 = 335 := by
    rw [daysBeforeMonth_congr (hleap.trans (show true = isLeap 4 from rfl))]
    rfl
  simp only [isLeap, Bool.and_eq_true, Bool.or_eq_true, decide_eq_true_eq] at hleap
  rw [toOrdinal, hmonth, daysBeforeYear, daysBeforeYear]
  push_cast
  omega

/-- **The calendar date of a day gives back its number.** -/
theorem toOrdinal_ofOrdinal {ordinal : ℤ} (h : 1 ≤ ordinal) :
    toOrdinal (ofOrdinal ordinal).1 (ofOrdinal ordinal).2.1 (ofOrdinal ordinal).2.2 = ordinal := by
  obtain ⟨n, hn⟩ := Int.eq_ofNat_of_zero_le (show 0 ≤ ordinal - 1 by omega)
  rw [ofOrdinal, hn, Int.toNat_natCast]
  dsimp only
  generalize h400 : n / 146097 = n400
  generalize hr400 : n % 146097 = r400
  generalize h100 : r400 / 36524 = n100
  generalize hr100 : r400 % 36524 = r100
  generalize h4 : r100 / 1461 = n4
  generalize hr4 : r100 % 1461 = r4
  generalize h1 : r4 / 365 = n1
  generalize hr1 : r4 % 365 = r1
  split
  · rename_i hlast
    -- the day that the cycles leave over is the last of a leap year
    rw [Nat.add_sub_cancel]
    have hleap : isLeap (n400 * 400 + n100 * 100 + n4 * 4 + n1) = true := by
      simp only [isLeap, Bool.and_eq_true, Bool.or_eq_true, decide_eq_true_eq]
      omega
    rw [toOrdinal_december_31 hleap]
    rcases hlast with h4years | h400years
    · have hyear := daysBeforeYear_cycles n400 (show n100 ≤ 3 by omega) (show n4 + 1 ≤ 24 by omega)
        (Nat.zero_le 3)
      rw [show n400 * 400 + n100 * 100 + n4 * 4 + n1 + 1 =
        n400 * 400 + n100 * 100 + (n4 + 1) * 4 + 0 + 1 by omega, hyear]
      push_cast
      omega
    · have hyear := daysBeforeYear_cycles (n400 + 1) (Nat.zero_le 3) (Nat.zero_le 24)
        (Nat.zero_le 3)
      rw [show n400 * 400 + n100 * 100 + n4 * 4 + n1 + 1 =
        (n400 + 1) * 400 + 0 * 100 + 0 * 4 + 0 + 1 by omega, hyear]
      push_cast
      omega
  · rename_i hinner
    rw [not_or] at hinner
    have hle := daysBeforeMonth_le (n400 * 400 + n100 * 100 + n4 * 4 + n1 + 1)
      (show r1 < 365 by omega)
    have hyear := daysBeforeYear_cycles n400 (show n100 ≤ 3 by omega) (show n4 ≤ 24 by omega)
      (show n1 ≤ 3 by omega)
    rw [toOrdinal, hyear]
    split
    · rename_i hover
      rw [if_pos hover] at hle
      push_cast [Nat.cast_sub hle]
      omega
    · rename_i hright
      rw [if_neg hright] at hle
      push_cast [Nat.cast_sub hle]
      omega

end Datetime

/-! ## Dates -/

/-- `date.max.toordinal()`. -/
def maxOrdinal : ℤ := 3652059

example : Datetime.ofOrdinal maxOrdinal = (9999, 12, 31) := by decide +kernel

/-- A date, by the number of its day. -/
@[ext]
structure Date where
  ordinal : ℤ
  bounds : 1 ≤ ordinal ∧ ordinal ≤ maxOrdinal
  deriving DecidableEq

namespace Date

open Datetime

/-- `d + timedelta(days=n)`. -/
def addDays (d : Date) (n : ℤ) : Option Date :=
  if h : 1 ≤ d.ordinal + n ∧ d.ordinal + n ≤ maxOrdinal then some ⟨d.ordinal + n, h⟩ else none

theorem addDays_eq_some_iff {d date : Date} {n : ℤ} :
    d.addDays n = some date ↔ date.ordinal = d.ordinal + n := by
  rw [addDays]
  split
  · rw [Option.some_inj, Date.ext_iff]
    exact eq_comm
  · rename_i hout
    refine iff_of_false (by simp) fun h ↦ hout ?_
    rw [← h]
    exact date.bounds

/-- `d.isoformat()`. -/
def isoformat (d : Date) : List Char :=
  let (year, month, day) := ofOrdinal d.ordinal
  zeroPadded 4 year ++ '-' :: zeroPadded 2 month ++ '-' :: zeroPadded 2 day

/-- **The text of a date tells which date it is.** -/
theorem isoformat_injective : Function.Injective isoformat := by
  intro d e h
  have hdash : ∀ width n, '-' ∉ zeroPadded width n := fun width n hmem ↦
    absurd (isDigit_of_mem_zeroPadded hmem) (by decide)
  rw [isoformat, isoformat] at h
  dsimp only at h
  simp only [List.append_assoc, List.cons_append] at h
  obtain ⟨hyear, h⟩ := append_sep_inj (hdash _ _) (hdash _ _) h
  obtain ⟨hmonth, hday⟩ := append_sep_inj (hdash _ _) (hdash _ _) h
  have hcalendar : ofOrdinal d.ordinal = ofOrdinal e.ordinal :=
    Prod.ext (zeroPadded_injective 4 hyear)
      (Prod.ext (zeroPadded_injective 2 hmonth) (zeroPadded_injective 2 hday))
  rw [Date.ext_iff, ← toOrdinal_ofOrdinal d.bounds.1, hcalendar, toOrdinal_ofOrdinal e.bounds.1]

end Date

end Python
