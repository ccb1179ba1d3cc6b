import Mathlib

/-!
# Cutting text

The parts of `str` that cut a text into pieces.  `str.split` on one character is `List.splitOn`;
here are `str.splitlines` and `str.split` with at most one cut.

Joining lines by newlines is undone by `splitlines` only where no line holds one of the other
characters that end a line (`splitlines_flatMap_newline`).
-/

set_option autoImplicit false

namespace Python

/-- The characters that end a line for `str.splitlines`. -/
def isLineBreak (c : Char) : Bool :=
  c.toNat ∈ [10, 11, 12, 13, 28, 29, 30, 133, 8232, 8233]

/-- `str.splitlines`: a carriage return and a line feed end one line together. -/
def splitlines : List Char → List (List Char)
  | [] => []
  | '\r' :: '\n' :: rest => [] :: splitlines rest
  | c :: rest =>
    if isLineBreak c then [] :: splitlines rest
    else
      match splitlines rest with
      | [] => [[c]]
      | line :: lines => (c :: line) :: lines

/-- A line has no character in it that ends one. -/
theorem not_isLineBreak_of_mem_splitlines {s line : List Char} (h : line ∈ splitlines s) :
    ∀ c ∈ line, isLineBreak c = false := by
  induction s using splitlines.induct generalizing line with
  | case1 => cases h
  | case2 rest ih =>
    rw [splitlines] at h
    rcases List.mem_cons.mp h with rfl | h
    · exact fun c hc ↦ nomatch hc
    · exact ih h
  | case3 c rest hcr hbreak ih =>
    rw [splitlines.eq_3 _ _ hcr, if_pos hbreak] at h
    rcases List.mem_cons.mp h with rfl | h
    · exact fun c hc ↦ nomatch hc
    · exact ih h
  | case4 c rest hcr hbreak hnil ih =>
    rw [splitlines.eq_3 _ _ hcr, if_neg hbreak, hnil] at h
    rw [List.mem_singleton.mp h]
    intro d hd
    rw [List.mem_singleton.mp hd]
    exact Bool.eq_false_of_not_eq_true hbreak
  | case5 c rest hcr hbreak first lines hcons ih =>
    rw [splitlines.eq_3 _ _ hcr, if_neg hbreak, hcons] at h
    rw [hcons] at ih
    rcases List.mem_cons.mp h with rfl | h
    · intro d hd
      rcases List.mem_cons.mp hd with rfl | hd
      · exact Bool.eq_false_of_not_eq_true hbreak
      · exact ih List.mem_cons_self d hd
    · exact ih (List.mem_cons_of_mem _ h)

/-- A text without such a character, ended by a newline, is the first line. -/
theorem splitlines_append_newline {line : List Char} (h : ∀ c ∈ line, isLineBreak c = false)
    (rest : List Char) : splitlines (line ++ '\n' :: rest) = line :: splitlines rest := by
  induction line with
  | nil => rw [List.nil_append, splitlines.eq_3 _ _ (by simp), if_pos (by decide)]
  | cons c line ih =>
    have hc := h c List.mem_cons_self
    have hcr : c ≠ '\r' := by
      rintro rfl
      exact absurd hc (by decide)
    rw [List.cons_append, splitlines.eq_3 _ _ (fun _ heq _ ↦ hcr heq), if_neg (by simp [hc]),
      ih fun d hd ↦ h d (List.mem_cons_of_mem _ hd)]

/-- **Lines that are each ended by a newline are read back**, if nothing in them ends a line. -/
theorem splitlines_flatMap_newline {lines : List (List Char)}
    (h : ∀ line ∈ lines, ∀ c ∈ line, isLineBreak c = false) :
    splitlines (lines.flatMap fun line ↦ line ++ ['\n']) = lines := by
  induction lines with
  | nil => rfl
  | cons line lines ih =>
    rw [List.flatMap_cons, List.append_assoc, List.singleton_append,
      splitlines_append_newline (h line List.mem_cons_self),
      ih fun l hl ↦ h l (List.mem_cons_of_mem _ hl)]

example : splitlines "a\r\nb\n\nc".toList = ["a".toList, "b".toList, [], "c".toList] := by decide

/-- `s.split(sep, 1)`: what stands before and after the first `sep`; all of `s` where there is
none. -/
def splitOnce (sep : Char) (s : List Char) : List (List Char) :=
  match s.dropWhile (· ≠ sep) with
  | [] => [s]
  | _ :: after => [s.takeWhile (· ≠ sep), after]

theorem splitOnce_append {sep : Char} {before : List Char} (h : sep ∉ before)
    (after : List Char) : splitOnce sep (before ++ sep :: after) = [before, after] := by
  have hbefore : ∀ c ∈ before, decide (c ≠ sep) = true := by
    intro c hc
    exact decide_eq_true fun heq ↦ h (heq ▸ hc)
  have hdrop : (before ++ sep :: after).dropWhile (· ≠ sep) = sep :: after := by
    rw [List.dropWhile_append_of_pos hbefore, List.dropWhile_cons_of_neg (by simp)]
  rw [splitOnce, hdrop, List.takeWhile_append_of_pos hbefore, List.takeWhile_cons_of_neg (by simp),
    List.append_nil]

/-- What stands before the first separator tells where a text was put together. -/
theorem append_sep_inj {sep : Char} {s t d e : List Char} (hs : sep ∉ s) (ht : sep ∉ t)
    (h : s ++ sep :: d = t ++ sep :: e) : s = t ∧ d = e := by
  have hcut := congrArg (splitOnce sep) h
  rw [splitOnce_append hs, splitOnce_append ht] at hcut
  simpa using hcut

/-- The same of beginnings. -/
theorem prefix_sep_iff {sep : Char} {s t d e : List Char} (hs : sep ∉ s) (ht : sep ∉ t) :
    s ++ sep :: d <+: t ++ sep :: e ↔ s = t ∧ d <+: e := by
  constructor
  · rintro ⟨rest, h⟩
    rw [List.append_assoc, List.cons_append] at h
    obtain ⟨rfl, hrest⟩ := append_sep_inj hs ht h
    exact ⟨rfl, rest, hrest⟩
  · rintro ⟨rfl, rest, rfl⟩
    exact ⟨rest, by rw [List.append_assoc, List.cons_append]⟩

/-- The parts between separators hold none. -/
theorem not_mem_of_mem_splitOn {sep : Char} {s part : List Char} (h : part ∈ s.splitOn sep) :
    sep ∉ part := by
  induction s generalizing part with
  | nil =>
    rw [List.splitOn_nil, List.mem_singleton] at h
    exact h ▸ List.not_mem_nil
  | cons c s ih =>
    rw [List.splitOn_cons_eq_if_modifyHead] at h
    split at h
    · rcases List.mem_cons.mp h with rfl | h
      · exact List.not_mem_nil
      · exact ih h
    · rename_i hc
      cases hparts : s.splitOn sep with
      | nil => exact absurd hparts (List.splitOn_ne_nil sep s)
      | cons first rest =>
        rw [hparts, List.modifyHead_cons] at h
        rcases List.mem_cons.mp h with rfl | h
        · have hfirst : sep ∉ first := ih (hparts ▸ List.mem_cons_self)
          refine fun hmem ↦ (List.mem_cons.mp hmem).elim (fun heq ↦ hc ?_) hfirst
          exact beq_iff_eq.mpr heq.symm
        · exact ih (hparts ▸ List.mem_cons_of_mem _ h)

/-! ## Order -/

/-- Texts of one length decide the order of what they begin. -/
theorem le_of_append_lt {a b s t : List Char} (hlen : a.length = b.length)
    (h : a ++ s < b ++ t) : a ≤ b := by
  rw [le_iff_lt_or_eq]
  induction a generalizing b with
  | nil => exact .inr (List.eq_nil_of_length_eq_zero hlen.symm).symm
  | cons c a ih =>
    cases b with
    | nil => cases hlen
    | cons d b =>
      rw [List.cons_append, List.cons_append, List.cons_lt_cons_iff] at h
      rw [List.cons_lt_cons_iff]
      rcases h with h | ⟨rfl, h⟩
      · exact .inl (.inl h)
      · rcases ih (Nat.succ.inj hlen) h with hlt | rfl
        · exact .inl (.inr ⟨rfl, hlt⟩)
        · exact .inr rfl

/-- Texts with one beginning are ordered by what follows it. -/
theorem append_left_mono (a : List Char) {s t : List Char} (h : s ≤ t) : a ++ s ≤ a ++ t := by
  rw [le_iff_lt_or_eq] at h ⊢
  exact h.imp List.append_left_lt (congrArg (a ++ ·))

end Python
