import Mathlib

/-!
# Shell patterns

`fnmatch` and the matching of whole paths by `glob`.  A pattern is cut into tokens: `*`, `?`, a
class in brackets, or a character that stands for itself.  A bracket that is never closed stands for
itself, and so does a closing bracket right after the opening one.

A pattern without `*`, `?` and `[` is plain and matches itself only.
-/

set_option autoImplicit false

namespace Python.Glob

inductive Token
  | star
  | any
  | char (c : Char)
  | class (negated : Bool) (ranges : List (Char × Char))

/-- The ranges of a class; a single character is a range too. -/
def ranges : List Char → List (Char × Char)
  | lo :: '-' :: hi :: rest => (lo, hi) :: ranges rest
  | c :: rest => (c, c) :: ranges rest
  | [] => []

/-- The class after an opening bracket and the rest of the pattern, where the bracket is closed. -/
def class? (s : List Char) : Option (Token × List Char) :=
  let (negated, s) :=
    match s with
    | '!' :: s => (true, s)
    | s => (false, s)
  -- a closing bracket that comes first belongs to the class
  let (first, s) :=
    match s with
    | ']' :: s => ([']'], s)
    | s => ([], s)
  match s.dropWhile (· ≠ ']') with
  | [] => none
  | _ :: rest => some (.class negated (ranges (first ++ s.takeWhile (· ≠ ']'))), rest)

/-- The tokens of a pattern of at most `n` characters. -/
def tokens : ℕ → List Char → List Token
  | 0, _ => []
  | _ + 1, [] => []
  | n + 1, c :: rest =>
    if c = '*' then .star :: tokens n rest
    else if c = '?' then .any :: tokens n rest
    else if c = '[' then
      match class? rest with
      | none => .char c :: tokens n rest
      | some (token, rest) => token :: tokens n rest
    else .char c :: tokens n rest

/-- A name matches the tokens. -/
def matchTokens : List Token → List Char → Bool
  | [], s => s.isEmpty
  | .star :: rest, s => s.tails.any (matchTokens rest)
  | .any :: rest, s =>
    match s with
    | [] => false
    | _ :: s => matchTokens rest s
  | .char c :: rest, s =>
    match s with
    | [] => false
    | d :: s => c = d && matchTokens rest s
  | .class negated ranges :: rest, s =>
    match s with
    | [] => false
    | d :: s => (negated != ranges.any fun r ↦ r.1 ≤ d && d ≤ r.2) && matchTokens rest s

/-- `fnmatch.fnmatchcase(name, pattern)`. -/
def fnmatch (pattern name : List Char) : Bool := matchTokens (tokens pattern.length pattern) name

/-- A component of a path matches that of a pattern; `*` does not show hidden names. -/
def matchComponent (pattern name : List Char) : Bool :=
  fnmatch pattern name && (pattern.head? = some '.' || name.head? ≠ some '.')

/-- `glob.glob(pattern)` finds a path. -/
def matchPath (pattern path : List (List Char)) : Bool :=
  pattern.length = path.length && (pattern.zip path).all fun p ↦ matchComponent p.1 p.2

/-- How often a path is found from the directories on it, down to the first one that is hidden. -/
def descend (found : List (List Char) → ℕ) : List (List Char) → ℕ
  | [] => found []
  | name :: path =>
    found (name :: path) + if name.head? = some '.' then 0 else descend found path

/-- How often `glob.glob(pattern, recursive=True)` finds a path: `**` stands for any number of
directories. -/
def timesFound : List (List Char) → List (List Char) → ℕ
  | [], path => if path = [] then 1 else 0
  | p :: pattern, path =>
    if p = "**".toList then descend (timesFound pattern) path
    else
      match path with
      | [] => 0
      | name :: path => if matchComponent p name then timesFound pattern path else 0

/-- How often a path or a directory that it is in is found. -/
def timesReached (pattern path : List (List Char)) : ℕ :=
  (path.inits.map (timesFound pattern)).sum

/-! ## Plain patterns -/

/-- No character of the pattern is special. -/
def Plain (s : List Char) : Prop := ∀ c ∈ s, c ≠ '*' ∧ c ≠ '?' ∧ c ≠ '['

instance (s : List Char) : Decidable (Plain s) :=
  decidable_of_iff ((s.all fun c ↦ c ≠ '*' && c ≠ '?' && c ≠ '[') = true)
    (by simp [Plain, and_assoc])

theorem Plain.append {s t : List Char} (hs : Plain s) (ht : Plain t) : Plain (s ++ t) := by
  intro c hc
  rcases List.mem_append.mp hc with h | h
  · exact hs c h
  · exact ht c h

theorem tokens_of_plain {s : List Char} (h : Plain s) {n : ℕ} (hn : s.length ≤ n) :
    tokens n s = s.map .char := by
  induction s generalizing n with
  | nil =>
    cases n with
    | zero => rfl
    | succ n => rfl
  | cons c rest ih =>
    obtain ⟨n, rfl⟩ : ∃ m, n = m + 1 := ⟨n - 1, by simp at hn; omega⟩
    obtain ⟨hstar, hany, hclass⟩ := h c List.mem_cons_self
    rw [tokens, if_neg hstar, if_neg hany, if_neg hclass, List.map_cons,
      ih (fun d hd ↦ h d (List.mem_cons_of_mem _ hd)) (by simpa using hn)]

theorem matchTokens_map_char {s name : List Char} :
    matchTokens (s.map .char) name = true ↔ name = s := by
  induction s generalizing name with
  | nil => simp [matchTokens]
  | cons c rest ih =>
    cases name with
    | nil => simp [matchTokens]
    | cons d name =>
      simp only [List.map_cons, matchTokens, Bool.and_eq_true, decide_eq_true_eq, ih,
        List.cons.injEq]
      rw [eq_comm]

theorem fnmatch_of_plain {pattern name : List Char} (h : Plain pattern) :
    fnmatch pattern name = true ↔ name = pattern := by
  rw [fnmatch, tokens_of_plain h le_rfl, matchTokens_map_char]

/-- A star and then plain text match what ends in the text. -/
theorem fnmatch_star {pattern name : List Char} (h : Plain pattern) :
    fnmatch ('*' :: pattern) name = true ↔ pattern <:+ name := by
  rw [fnmatch, List.length_cons, tokens, if_pos rfl, tokens_of_plain h le_rfl, matchTokens,
    List.any_eq_true]
  simp only [List.mem_tails, matchTokens_map_char, exists_eq_right]

theorem matchComponent_of_plain {pattern name : List Char} (h : Plain pattern) :
    matchComponent pattern name = true ↔ name = pattern := by
  rw [matchComponent, Bool.and_eq_true, fnmatch_of_plain h]
  constructor
  · exact fun h ↦ h.1
  · rintro rfl
    refine ⟨rfl, ?_⟩
    by_cases hd : name.head? = some '.'
    · simp [hd]
    · simp [hd]

@[simp] theorem matchPath_nil : matchPath [] [] = true := rfl

theorem matchPath_cons {p n : List Char} {pattern path : List (List Char)} :
    matchPath (p :: pattern) (n :: path) = (matchComponent p n && matchPath pattern path) := by
  simp only [matchPath, List.length_cons, List.zip_cons_cons, List.all_cons,
    Nat.add_right_cancel_iff]
  rw [Bool.and_left_comm]

/-- A last component is matched by itself. -/
theorem matchPath_concat (pattern path : List (List Char)) (p n : List Char) :
    matchPath (pattern ++ [p]) (path ++ [n]) = (matchPath pattern path && matchComponent p n) := by
  by_cases h : pattern.length = path.length
  · simp [matchPath, h, List.zip_append h]
  · simp [matchPath, h]

/-- Plain directories that a pattern and a path begin with are passed over. -/
theorem matchPath_append {dirs : List (List Char)} (h : ∀ dir ∈ dirs, Plain dir)
    (pattern path : List (List Char)) :
    matchPath (dirs ++ pattern) (dirs ++ path) = matchPath pattern path := by
  induction dirs with
  | nil => rfl
  | cons dir dirs ih =>
    rw [List.cons_append, List.cons_append, matchPath_cons,
      (matchComponent_of_plain (h dir List.mem_cons_self)).mpr rfl, Bool.true_and,
      ih fun d hd ↦ h d (List.mem_cons_of_mem _ hd)]

/-- Whatever directories a pattern and a path begin with, the rest has to match. -/
theorem matchPath_of_append {dirs pattern path : List (List Char)}
    (h : matchPath (dirs ++ pattern) (dirs ++ path) = true) : matchPath pattern path = true := by
  induction dirs with
  | nil => exact h
  | cons dir dirs ih =>
    rw [List.cons_append, List.cons_append, matchPath_cons, Bool.and_eq_true] at h
    exact ih h.2

theorem timesFound_cons_of_plain {dir : List Char} (h : Plain dir)
    (pattern path : List (List Char)) :
    timesFound (dir :: pattern) (dir :: path) = timesFound pattern path := by
  have hne : dir ≠ "**".toList := by
    rintro rfl
    exact absurd h (by decide)
  rw [timesFound, if_neg hne, if_pos ((matchComponent_of_plain h).mpr rfl)]

/-- Plain directories that a pattern and a path begin with are passed over here too. -/
theorem timesReached_append {dirs : List (List Char)} (h : ∀ dir ∈ dirs, Plain dir)
    (pattern path : List (List Char)) :
    timesReached (dirs ++ pattern) (dirs ++ path) = timesReached pattern path := by
  induction dirs with
  | nil => rfl
  | cons dir dirs ih =>
    have hdir := h dir List.mem_cons_self
    have hnil : timesFound (dir :: (dirs ++ pattern)) [] = 0 := by
      have hne : dir ≠ "**".toList := by
        rintro rfl
        exact absurd hdir (by decide)
      rw [timesFound, if_neg hne]
    have hrest := ih fun d hd ↦ h d (List.mem_cons_of_mem _ hd)
    simp only [timesReached] at hrest ⊢
    simp only [List.cons_append, List.inits_cons, List.map_cons, List.map_map, List.sum_cons, hnil,
      Nat.zero_add]
    rw [← hrest]
    exact congrArg List.sum (List.map_congr_left fun q _ ↦ timesFound_cons_of_plain hdir _ q)

theorem timesFound_singleton {p : List Char} (hp : p ≠ "**".toList) (path : List (List Char)) :
    timesFound [p] path =
      if path.length = 1 ∧ path.all (matchComponent p) = true then 1 else 0 := by
  match path with
  | [] => rw [timesFound, if_neg hp, if_neg (by simp)]
  | [name] =>
    rw [timesFound, if_neg hp]
    simp [timesFound]
  | name :: name' :: rest =>
    rw [timesFound, if_neg hp]
    simp [timesFound]

/-- Below `**`, a star and then plain text find a path once where they find no directory on it. -/
theorem timesReached_below {suffix : List Char} (h : Plain suffix) {dirs : List (List Char)}
    {name : List Char} (hdirs : ∀ dir ∈ dirs, dir.head? ≠ some '.' ∧ ¬ suffix <:+ dir)
    (hname : name.head? ≠ some '.' ∧ suffix <:+ name) :
    timesReached ["**".toList, '*' :: suffix] (dirs ++ [name]) = 1 := by
  have hne : '*' :: suffix ≠ "**".toList := by
    intro heq
    obtain rfl : suffix = ['*'] := (List.cons.inj heq).2
    exact absurd h (by decide)
  have hmatch : ∀ n, matchComponent ('*' :: suffix) n = true ↔
      suffix <:+ n ∧ n.head? ≠ some '.' := by
    intro n
    rw [matchComponent, Bool.and_eq_true, fnmatch_star h]
    simp
  have habove : ∀ dirs : List (List Char), (∀ dir ∈ dirs, ¬ suffix <:+ dir) →
      descend (timesFound ['*' :: suffix]) dirs = 0 := by
    intro dirs hdirs
    induction dirs with
    | nil => rw [descend, timesFound_singleton hne, if_neg (by simp)]
    | cons dir rest ih =>
      have hdir := hdirs dir List.mem_cons_self
      rw [descend, timesFound_singleton hne, if_neg (by simp [hmatch, hdir]),
        ih fun d hd ↦ hdirs d (List.mem_cons_of_mem _ hd), ite_self]
  have hfound : descend (timesFound ['*' :: suffix]) (dirs ++ [name]) = 1 := by
    induction dirs with
    | nil =>
      rw [List.nil_append, descend, timesFound_singleton hne, if_pos (by simp [hmatch, hname]),
        habove [] (by simp), ite_self]
    | cons dir rest ih =>
      rw [List.cons_append, descend, timesFound_singleton hne, if_neg (by simp),
        if_neg (hdirs dir List.mem_cons_self).1, ih fun d hd ↦ hdirs d (List.mem_cons_of_mem _ hd)]
  have hnone : ∀ q ∈ dirs.inits, timesFound ["**".toList, '*' :: suffix] q = 0 :=
    fun q hq ↦ habove q fun dir hdir ↦
      (hdirs dir (((List.mem_inits _ _).mp hq).subset hdir)).2
  have hself : timesFound ["**".toList, '*' :: suffix] (dirs ++ [name]) = 1 := hfound
  rw [timesReached, List.inits_append, List.map_append, List.sum_append,
    List.map_congr_left hnone]
  simpa using hself

example : fnmatch "a[!b-d]*".toList "aexyz".toList = true := by decide

end Python.Glob
