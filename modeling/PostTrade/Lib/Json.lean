import PostTrade.Lib.Decimal

/-!
# `json.loads`

The JSON reader of Python's standard library on a text.  Beyond the grammar of JSON it takes `NaN`,
`Infinity` and `-Infinity`; a key that occurs twice has its last value; an integer of more than
4300 digits is a `ValueError` of its own, and everything else that is not a JSON text is a
`JSONDecodeError`.  A number with a fraction or an exponent is a float.

An escaped surrogate without its partner is no character, and a string with one in it is a value of
its own: Python keeps it, and fails where it has to encode it.  In a key it reads as the replacement
character, which is all the same to a lookup of any other key.

How deep an interpreter can follow the nesting of a text depends on the interpreter and on what it
is doing, and what lies deeper is a `RecursionError`: `loadsWithin` has that depth for a parameter,
and `loads` is the reader without a limit.  The two agree where the former does not give up
(`loadsWithin_eq`).  The reader recurses on a count that every text it can read stays within.
-/

set_option autoImplicit false

namespace Python

/-- A value as `json.loads` returns it. -/
inductive Json
  | null
  | bool (b : Bool)
  | int (n : ℤ)
  | float (x : Decimal)
  | str (s : List Char)
  /-- A string that has a lone surrogate among its code points. -/
  | surrogates (points : List ℕ)
  | list (elements : List Json)
  | dict (items : List (List Char × Json))

/-- The errors of `json.loads`. -/
inductive JsonError
  | decodeError
  | valueError
  | recursionError
  deriving DecidableEq, Repr

namespace Json

/-- `bool(value)`. -/
def truthy : Json → Bool
  | .null => false
  | .bool b => b
  | .int n => n ≠ 0
  | .float x => x ≠ .finite 0
  | .str s => s ≠ []
  | .surrogates points => points ≠ []
  | .list elements => !elements.isEmpty
  | .dict items => !items.isEmpty

/-- `value is None`. -/
def isNone : Json → Bool
  | .null => true
  | _ => false

/-- `d.get(key)` of a dictionary: `None` where the key is missing. -/
def get (items : List (List Char × Json)) (key : List Char) : Json :=
  match items.reverse.find? fun item ↦ item.1 = key with
  | none => .null
  | some item => item.2

/-! ## Strings -/

/-- A hexadecimal digit. -/
def hexDigit? (c : Char) : Option ℕ :=
  if '0' ≤ c ∧ c ≤ '9' then some (c.toNat - '0'.toNat)
  else if 'a' ≤ c ∧ c ≤ 'f' then some (c.toNat - 'a'.toNat + 10)
  else if 'A' ≤ c ∧ c ≤ 'F' then some (c.toNat - 'A'.toNat + 10)
  else none

/-- Four hexadecimal digits. -/
def hex4? (a b c d : Char) : Option ℕ := do
  let a ← hexDigit? a
  let b ← hexDigit? b
  let c ← hexDigit? c
  let d ← hexDigit? d
  return 4096 * a + 256 * b + 16 * c + d

/-- What a character after a backslash stands for. -/
def escape? : Char → Option Char
  | '"' => some '"'
  | '\\' => some '\\'
  | '/' => some '/'
  | 'b' => some (Char.ofNat 8)
  | 'f' => some (Char.ofNat 12)
  | 'n' => some '\n'
  | 'r' => some '\r'
  | 't' => some '\t'
  | _ => none

/-- The code units of a string up to its closing quote, and the rest of the text. -/
def codeUnits? : List Char → Option (List ℕ × List Char)
  | [] => none
  | '"' :: rest => some ([], rest)
  | '\\' :: 'u' :: a :: b :: c :: d :: rest => do
    let unit ← hex4? a b c d
    let (units, rest) ← codeUnits? rest
    return (unit :: units, rest)
  | '\\' :: c :: rest => do
    let c ← escape? c
    let (units, rest) ← codeUnits? rest
    return (c.toNat :: units, rest)
  | c :: rest =>
    if c.toNat < 32 ∨ c = '\\' then none
    else do
      let (units, rest) ← codeUnits? rest
      return (c.toNat :: units, rest)

/-- The code points of the code units: two surrogates that belong together are one. -/
def codePoints : List ℕ → List ℕ
  | high :: low :: rest =>
    if 0xD800 ≤ high ∧ high ≤ 0xDBFF ∧ 0xDC00 ≤ low ∧ low ≤ 0xDFFF then
      (0x10000 + (high - 0xD800) * 0x400 + (low - 0xDC00)) :: codePoints rest
    else high :: codePoints (low :: rest)
  | [unit] => [unit]
  | [] => []

def isSurrogate (point : ℕ) : Bool := 0xD800 ≤ point && point ≤ 0xDFFF

/-- The characters of code points, the replacement character for a surrogate. -/
def characters (points : List ℕ) : List Char :=
  points.map fun point ↦ Char.ofNat (if isSurrogate point then 0xFFFD else point)

/-- The string of code points. -/
def ofCodePoints (points : List ℕ) : Json :=
  if points.any isSurrogate then .surrogates points else .str (characters points)

/-- The code points of a string after its opening quote. -/
def string? (s : List Char) : Except JsonError (List ℕ × List Char) :=
  match codeUnits? s with
  | none => .error .decodeError
  | some (units, rest) => .ok (codePoints units, rest)

/-! ## Numbers -/

/-- The fraction of a number: a point and at least one digit.  Where there is none nothing is
read. -/
def fraction? (s : List Char) : Option (List ℕ) × List Char :=
  match s with
  | '.' :: rest =>
    match takeDigits rest with
    | ([], _) => (none, s)
    | (digits, rest) => (some digits, rest)
  | _ => (none, s)

/-- The exponent of a number: `e` or `E`, a sign or none, and at least one digit. -/
def exponent? (s : List Char) : Option ℤ × List Char :=
  match s with
  | c :: rest =>
    if c = 'e' ∨ c = 'E' then
      let (sign, rest) := takeSign rest
      match takeDigits rest with
      | ([], _) => (none, s)
      | (digits, rest) => (some (sign * ofDigits digits), rest)
    else (none, s)
  | [] => (none, s)

/-- A number after its sign: an integer, or a float where it has a fraction or an exponent. -/
def number? (sign : ℤ) (s : List Char) : Except JsonError (Json × List Char) :=
  let (whole, rest) :=
    match s with
    | '0' :: rest => ([0], rest)
    | _ => takeDigits s
  if whole = [] then .error .decodeError
  else
    match fraction? rest with
    | (fraction, rest) =>
      match exponent? rest with
      | (exponent, rest) =>
        match fraction, exponent with
        | none, none =>
          if whole.length > 4300 then .error .valueError
          else .ok (.int (sign * ofDigits whole), rest)
        | _, _ =>
          let fraction := fraction.getD []
          let value : ℚ := sign * ofDigits (whole ++ fraction)
            * 10 ^ (exponent.getD 0 - fraction.length)
          .ok (.float (Float64.ofRat value), rest)

/-! ## Values -/

/-- White space between the tokens. -/
def skipSpace (s : List Char) : List Char := s.dropWhile (· ∈ [' ', '\t', '\n', '\r'])

/-- One level down, as far as the limit allows. -/
def descend : Option ℕ → Except JsonError (Option ℕ)
  | none => .ok none
  | some 0 => .error .recursionError
  | some (limit + 1) => .ok (some limit)

mutual

/-- A value. -/
def value? : ℕ → Option ℕ → List Char → Except JsonError (Json × List Char)
  | 0, _, _ => .error .decodeError
  | n + 1, limit, s =>
    match s with
    | '"' :: rest => do
      let (points, rest) ← string? rest
      return (ofCodePoints points, rest)
    | '{' :: rest => do
      let limit ← descend limit
      match skipSpace rest with
      | '}' :: rest => return (.dict [], rest)
      | rest => do
        let (items, rest) ← items? n limit rest
        return (.dict items, rest)
    | '[' :: rest => do
      let limit ← descend limit
      match skipSpace rest with
      | ']' :: rest => return (.list [], rest)
      | rest => do
        let (elements, rest) ← elements? n limit rest
        return (.list elements, rest)
    | 'n' :: 'u' :: 'l' :: 'l' :: rest => .ok (.null, rest)
    | 't' :: 'r' :: 'u' :: 'e' :: rest => .ok (.bool true, rest)
    | 'f' :: 'a' :: 'l' :: 's' :: 'e' :: rest => .ok (.bool false, rest)
    | 'N' :: 'a' :: 'N' :: rest => .ok (.float .nan, rest)
    | 'I' :: 'n' :: 'f' :: 'i' :: 'n' :: 'i' :: 't' :: 'y' :: rest => .ok (.float .infinite, rest)
    | '-' :: 'I' :: 'n' :: 'f' :: 'i' :: 'n' :: 'i' :: 't' :: 'y' :: rest =>
      .ok (.float .infinite, rest)
    | '-' :: rest => number? (-1) rest
    | s => number? 1 s

/-- The elements of an array, up to its closing bracket. -/
def elements? : ℕ → Option ℕ → List Char → Except JsonError (List Json × List Char)
  | 0, _, _ => .error .decodeError
  | n + 1, limit, s => do
    let (element, rest) ← value? n limit s
    match skipSpace rest with
    | ',' :: rest => do
      let (elements, rest) ← elements? n limit (skipSpace rest)
      return (element :: elements, rest)
    | ']' :: rest => return ([element], rest)
    | _ => .error .decodeError

/-- The items of an object, up to its closing brace. -/
def items? : ℕ → Option ℕ → List Char → Except JsonError (List (List Char × Json) × List Char)
  | 0, _, _ => .error .decodeError
  | n + 1, limit, s =>
    match s with
    | '"' :: rest => do
      let (points, rest) ← string? rest
      match skipSpace rest with
      | ':' :: rest => do
        let (value, rest) ← value? n limit (skipSpace rest)
        match skipSpace rest with
        | ',' :: rest => do
          let (items, rest) ← items? n limit (skipSpace rest)
          return ((characters points, value) :: items, rest)
        | '}' :: rest => return ([(characters points, value)], rest)
        | _ => .error .decodeError
      | _ => .error .decodeError
    | _ => .error .decodeError

end

/-- `json.loads`, in an interpreter that can follow as many levels of nesting as the limit says. -/
def loadsWithin (limit : Option ℕ) (s : List Char) : Except JsonError Json := do
  let (value, rest) ← value? (2 * s.length + 2) limit (skipSpace s)
  if skipSpace rest = [] then return value else .error .decodeError

/-- `json.loads`. -/
def loads (s : List Char) : Except JsonError Json := loadsWithin none s

/-! ## The limit -/

/-- The one gives up, or the two agree. -/
def GivesUpOr {α : Type} (x y : Except JsonError α) : Prop := x = .error .recursionError ∨ x = y

theorem GivesUpOr.rfl {α : Type} {x : Except JsonError α} : GivesUpOr x x := .inr (Eq.refl x)

theorem GivesUpOr.bind {α β : Type} {x y : Except JsonError α} {f g : α → Except JsonError β}
    (h : GivesUpOr x y) (hf : ∀ a, GivesUpOr (f a) (g a)) : GivesUpOr (x >>= f) (y >>= g) := by
  rcases h with h | h
  · exact .inl (by rw [h]; exact Eq.refl _)
  · rw [h]
    cases y with
    | error e => exact .rfl
    | ok a => exact hf a

/-- Below a limit there is one again, or the reader gives up. -/
theorem GivesUpOr.descend {α : Type} {f : Option ℕ → Except JsonError α} (limit : Option ℕ)
    (hf : ∀ limit, GivesUpOr (f limit) (f none)) :
    GivesUpOr (Json.descend limit >>= f) (Json.descend none >>= f) := by
  match limit with
  | none => exact .rfl
  | some 0 => exact .inl (Eq.refl _)
  | some (limit + 1) => exact hf (some limit)

/-- By induction on the count, for the three readers at once. -/
theorem givesUpOr (n : ℕ) :
    (∀ limit s, GivesUpOr (value? n limit s) (value? n none s)) ∧
    (∀ limit s, GivesUpOr (elements? n limit s) (elements? n none s)) ∧
    ∀ limit s, GivesUpOr (items? n limit s) (items? n none s) := by
  induction n with
  | zero =>
    refine ⟨fun limit s ↦ ?_, fun limit s ↦ ?_, fun limit s ↦ ?_⟩
    · rw [value?, value?]
      exact .rfl
    · rw [elements?, elements?]
      exact .rfl
    · rw [items?, items?]
      exact .rfl
  | succ n ih =>
    obtain ⟨hvalue, helements, hitems⟩ := ih
    refine ⟨fun limit s ↦ ?_, fun limit s ↦ ?_, fun limit s ↦ ?_⟩
    · rw [value?.eq_def, value?.eq_def]
      dsimp only
      split
      · exact .rfl
      · refine GivesUpOr.descend limit fun limit ↦ ?_
        split
        · exact .rfl
        · exact (hitems _ _).bind fun _ ↦ .rfl
      · refine GivesUpOr.descend limit fun limit ↦ ?_
        split
        · exact .rfl
        · exact (helements _ _).bind fun _ ↦ .rfl
      all_goals exact .rfl
    · rw [elements?, elements?]
      refine (hvalue _ _).bind ?_
      rintro ⟨element, rest⟩
      dsimp only
      split
      · exact (helements _ _).bind fun _ ↦ .rfl
      · exact .rfl
      · exact .rfl
    · rw [items?.eq_def, items?.eq_def]
      dsimp only
      split
      · refine GivesUpOr.rfl.bind ?_
        rintro ⟨points, rest⟩
        dsimp only
        split
        · refine (hvalue _ _).bind ?_
          rintro ⟨value, rest⟩
          dsimp only
          split
          · exact (hitems _ _).bind fun _ ↦ .rfl
          · exact .rfl
          · exact .rfl
        · exact .rfl
      · exact .rfl

/-- **A reader with a limit gives up, or it reads what the one without reads.** -/
theorem loadsWithin_eq (limit : Option ℕ) (s : List Char) :
    loadsWithin limit s = .error .recursionError ∨ loadsWithin limit s = loads s :=
  ((givesUpOr _).1 limit _).bind fun _ ↦ .rfl

/-! ## Texts of dictionaries -/

theorem number?_ne_dict {sign : ℤ} {s rest : List Char} {items : List (List Char × Json)} :
    number? sign s ≠ .ok (.dict items, rest) := by
  intro h
  unfold number? at h
  dsimp only at h
  split at h
  · rename_i rest'
    split at h
    · cases h
    · split at h
      · split at h
        · cases h
        · cases h
      · cases h
  · split at h
    · cases h
    · split at h
      · split at h
        · cases h
        · cases h
      · cases h

theorem ofCodePoints_ne_dict {points : List ℕ} {items : List (List Char × Json)} :
    ofCodePoints points ≠ .dict items := by
  rw [ofCodePoints]
  split
  · intro h
    cases h
  · intro h
    cases h

/-- A dictionary begins with a brace. -/
theorem head?_of_value?_dict {n : ℕ} {limit : Option ℕ} {s rest : List Char}
    {items : List (List Char × Json)} (h : value? n limit s = .ok (.dict items, rest)) :
    s.head? = some '{' := by
  cases n with
  | zero =>
    rw [value?] at h
    cases h
  | succ n =>
    rw [value?.eq_def] at h
    dsimp only at h
    split at h
    · rename_i rest'
      cases hstr : string? rest' with
      | error e =>
        rw [hstr] at h
        cases h
      | ok p =>
        rw [hstr] at h
        exact absurd (congrArg Prod.fst (Except.ok.inj h)) ofCodePoints_ne_dict
    · rfl
    · rename_i rest'
      cases hdescend : descend limit with
      | error e =>
        rw [hdescend] at h
        cases h
      | ok limit =>
        rw [hdescend] at h
        dsimp only [bind, Except.bind] at h
        split at h
        · cases h
        · cases hlist : elements? n limit (skipSpace rest') with
          | error e =>
            rw [hlist] at h
            cases h
          | ok p =>
            rw [hlist] at h
            cases h
    · cases h
    · cases h
    · cases h
    · cases h
    · cases h
    · cases h
    · exact absurd h number?_ne_dict
    · exact absurd h number?_ne_dict

/-- The text of a dictionary has a brace in it. -/
theorem brace_mem_of_loads {s : List Char} {items : List (List Char × Json)}
    (h : loads s = .ok (.dict items)) : '{' ∈ s := by
  rw [loads, loadsWithin] at h
  cases hvalue : value? (2 * s.length + 2) none (skipSpace s) with
  | error e =>
    rw [hvalue] at h
    cases h
  | ok r =>
    obtain ⟨value, rest⟩ := r
    rw [hvalue] at h
    dsimp only [bind, Except.bind] at h
    split at h
    · cases h
      exact (List.dropWhile_sublist _).subset
        (List.mem_of_head? (head?_of_value?_dict hvalue))
    · cases h

end Json

end Python
