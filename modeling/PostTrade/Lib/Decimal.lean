import Mathlib

/-!
# Decimal numbers, and the floats that become them

`decimal.Decimal` of Python, as far as its constructor goes.  A finite decimal is the rational
number it stands for; how many digits it was written with does not matter to a comparison or a sum.

`Decimal.ofStr?` is the constructor on a string: white space around it and underscores in it are
passed over, digits may be those of any script, and what is not a number is an `InvalidOperation`.
`Float64.ofRat` rounds a number to the nearest binary64 value, ties to even, which is what reading
a float does; `Decimal` of a float is exact.
-/

set_option autoImplicit false

namespace Python

/-! ## Text -/

/-- `str.isspace` of one character. -/
def isSpace (c : Char) : Bool :=
  c.toNat ∈ [9, 10, 11, 12, 13, 28, 29, 30, 31, 32, 133, 160, 5760, 8192, 8193, 8194, 8195, 8196,
    8197, 8198, 8199, 8200, 8201, 8202, 8232, 8233, 8239, 8287, 12288]

/-- `str.strip`. -/
def strip (s : List Char) : List Char :=
  ((s.dropWhile isSpace).reverse.dropWhile isSpace).reverse

/-- A text with a character that is no space is not blank. -/
theorem strip_ne_nil {s : List Char} {c : Char} (hc : c ∈ s) (hspace : isSpace c = false) :
    strip s ≠ [] := by
  have hdrop : c ∈ s.dropWhile isSpace := by
    rw [← List.takeWhile_append_dropWhile (p := isSpace) (l := s)] at hc
    refine (List.mem_append.mp hc).resolve_left fun h ↦ ?_
    rw [List.mem_takeWhile_imp h] at hspace
    cases hspace
  intro hnil
  rw [strip, List.reverse_eq_nil_iff, List.dropWhile_eq_nil_iff] at hnil
  rw [hnil c (List.mem_reverse.mpr hdrop)] at hspace
  cases hspace

/-- A decimal digit. -/
def digit? (c : Char) : Option ℕ := if '0' ≤ c ∧ c ≤ '9' then some (c.toNat - '0'.toNat) else none

/-- The digits a text starts with, and the rest of it. -/
def takeDigits : List Char → List ℕ × List Char
  | [] => ([], [])
  | c :: rest =>
    match digit? c with
    | none => ([], c :: rest)
    | some d => (d :: (takeDigits rest).1, (takeDigits rest).2)

/-- The number the digits are. -/
def ofDigits (digits : List ℕ) : ℕ := digits.foldl (fun n d ↦ 10 * n + d) 0

/-- An optional sign, and the rest. -/
def takeSign : List Char → ℤ × List Char
  | '+' :: rest => (1, rest)
  | '-' :: rest => (-1, rest)
  | s => (1, s)

/-! ## Decimals -/

/-- A number as a decimal or a float can be. -/
inductive Decimal
  | finite (q : ℚ)
  | infinite
  | nan
  deriving DecidableEq

/-- The exponents the decimal module can store. -/
def maxExponent : ℤ := 999999999999999999

/-- `coefficient · 10 ^ exponent`, where the exponent can be stored. -/
def Decimal.scaled? (sign : ℤ) (digits : List ℕ) (exponent : ℤ) : Option Decimal :=
  if exponent + digits.length - 1 ≤ maxExponent ∧ -(2 * maxExponent - 1) ≤ exponent then
    some (.finite (sign * ofDigits digits * (10 : ℚ) ^ exponent))
  else none

/-- The exponent part, which may be missing. -/
def exponent? : List Char → Option ℤ
  | [] => some 0
  | c :: rest =>
    if c = 'e' then
      let (sign, rest) := takeSign rest
      match takeDigits rest with
      | (d :: digits, []) => some (sign * ofDigits (d :: digits))
      | _ => none
    else none

/-- A number in lower case, after its sign. -/
def Decimal.unsigned? (sign : ℤ) (s : List Char) : Option Decimal :=
  if s = "inf".toList ∨ s = "infinity".toList then some .infinite
  else
    match s with
    | 'n' :: 'a' :: 'n' :: rest => if (takeDigits rest).2 = [] then some .nan else none
    | 's' :: 'n' :: 'a' :: 'n' :: rest => if (takeDigits rest).2 = [] then some .nan else none
    | s =>
      let (whole, rest) := takeDigits s
      let (fraction, rest) :=
        match rest with
        | '.' :: rest => takeDigits rest
        | rest => ([], rest)
      if whole ++ fraction = [] then none
      else
        (exponent? rest).bind fun exponent ↦
          Decimal.scaled? sign (whole ++ fraction) (exponent - fraction.length)

/-- The zeros of Unicode beyond ASCII; the other nine digits of a script follow its zero. -/
def digitZeros : List ℕ :=
  [1632, 1776, 1984, 2406, 2534, 2662, 2790, 2918, 3046, 3174, 3302, 3430, 3558, 3664, 3792, 3872,
   4160, 4240, 6112, 6160, 6470, 6608, 6784, 6800, 6992, 7088, 7232, 7248, 42528, 43216, 43264,
   43472, 43504, 43600, 44016, 65296, 66720, 68912, 69734, 69872, 69942, 70096, 70384, 70736,
   70864, 71248, 71360, 71472, 71904, 72016, 72784, 73040, 73120, 73552, 92768, 92864, 93008,
   120782, 120792, 120802, 120812, 120822, 123200, 123632, 124144, 125264, 130032]

/-- A digit of any script as the one of ASCII. -/
def asciiDigit (c : Char) : Char :=
  if c.toNat < 128 then c
  else
    match digitZeros.find? fun first ↦ first ≤ c.toNat ∧ c.toNat < first + 10 with
    | none => c
    | some first => Char.ofNat ('0'.toNat + (c.toNat - first))

/-- `Decimal(s)` of a string; `none` is `InvalidOperation`. -/
def Decimal.ofStr? (s : List Char) : Option Decimal :=
  let (sign, rest) := takeSign (((strip s).filter (· ≠ '_')).map fun c ↦ (asciiDigit c).toLower)
  Decimal.unsigned? sign rest

/-! ## Floats -/

/-- The nearest integer, the even one of two. -/
def roundHalfEven (x : ℚ) : ℤ :=
  let floor := ⌊x⌋
  if x - floor < 1 / 2 then floor
  else if x - floor > 1 / 2 then floor + 1
  else if floor % 2 = 0 then floor
  else floor + 1

/-- The binary64 value nearest to a number. -/
def Float64.ofRat (x : ℚ) : Decimal :=
  if x = 0 then .finite 0
  else
    -- the place of the last of 53 binary digits, or of the last one of a subnormal number
    let place : ℤ := max (Int.log 2 |x| - 52) (-1074)
    let rounded : ℚ := roundHalfEven (x / 2 ^ place) * 2 ^ place
    if |rounded| < 2 ^ (1024 : ℤ) then .finite rounded else .infinite

example : Decimal.ofStr? " -1_0.50e-1 ".toList = some (.finite (-105 / 100)) := by decide +kernel

example : Decimal.ofStr? "٣.５".toList = some (.finite (35 / 10)) := by decide +kernel

example : Float64.ofRat (1 / 10) = .finite (3602879701896397 / 36028797018963968) := by
  decide +kernel

end Python
