/-!
# Places in a YAML text

A `Cursor` is what is left of a text, with the position of its first character:
its index, its line and its column.  All reading of YAML moves a cursor
forward, never back.
-/

namespace ImageRecipe.Yaml

def isBreak (c : Char) : Bool :=
  c == '\n' || c == '\r' || c == '\u0085' || c == '\u2028' || c == '\u2029'

def isSpace (c : Char) : Bool :=
  c == ' ' || c == '\t'

/-- The characters of names: of anchors, of tag handles and of directives. -/
def isWord (c : Char) : Bool :=
  ('0' ≤ c && c ≤ '9') || ('A' ≤ c && c ≤ 'Z') || ('a' ≤ c && c ≤ 'z') || c == '_' || c == '-'

/-- Whether a word ends here: at a space, at the end of a line, or at the end of the text. -/
def endsWord : List Char → Bool
  | [] => true
  | c :: _ => isSpace c || isBreak c

def endsLine : List Char → Bool
  | [] => true
  | c :: _ => isBreak c

def startsWith (c : Char) (s : List Char) : Bool :=
  s.head? == some c

/-- Whether a text starts with three times a character, as a word of its own. -/
def startsMarker (c : Char) : List Char → Bool
  | a :: b :: d :: r => a == c && b == c && d == c && endsWord r
  | _ => false

structure Cursor where
  rest : List Char
  index : Nat := 0
  line : Nat := 0
  column : Nat := 0
  deriving DecidableEq, Repr

namespace Cursor

/-- `n` characters further on the same line. -/
def skip (c : Cursor) (n : Nat) : Cursor :=
  ⟨c.rest.drop n, c.index + n, c.line, c.column + n⟩

/-- Behind the characters that satisfy `p`, none of which ends a line. -/
def skipWhile (c : Cursor) (p : Char → Bool) : Cursor :=
  c.skip (c.rest.takeWhile p).length

/-- At the start of the next line; a carriage return and a line feed end one line together. -/
def newline (c : Cursor) : Cursor :=
  match c.rest with
  | '\r' :: '\n' :: r => ⟨r, c.index + 2, c.line + 1, 0⟩
  | _ :: r => ⟨r, c.index + 1, c.line + 1, 0⟩
  | [] => c

def skipComment (c : Cursor) : Cursor :=
  if startsWith '#' c.rest then c.skipWhile (!isBreak ·) else c

/-- Behind a byte-order mark at the start of a line.  It takes up a column of the line. -/
def skipMark (c : Cursor) : Cursor :=
  if c.column == 0 && startsWith '\ufeff' c.rest then c.skip 1 else c

/-- Whether a document marker, `---` or `...`, stands here at the start of a line. -/
def atMarker (c : Cursor) : Bool :=
  c.column == 0 && (startsMarker '-' c.rest || startsMarker '.' c.rest)

theorem length_skip_le (c : Cursor) (n : Nat) : (c.skip n).rest.length ≤ c.rest.length := by
  simp [skip]

theorem length_skipWhile_le (c : Cursor) (p : Char → Bool) :
    (c.skipWhile p).rest.length ≤ c.rest.length :=
  c.length_skip_le _

theorem length_skipComment_le (c : Cursor) : c.skipComment.rest.length ≤ c.rest.length := by
  unfold skipComment
  split
  · exact c.length_skipWhile_le _
  · exact Nat.le_refl _

theorem length_skipMark_le (c : Cursor) : c.skipMark.rest.length ≤ c.rest.length := by
  unfold skipMark
  split
  · exact c.length_skip_le 1
  · exact Nat.le_refl _

theorem length_skipWhile_lt {c : Cursor} {p : Char → Bool} {ch : Char} {r : List Char}
    (hc : c.rest = ch :: r) (hp : p ch = true) : (c.skipWhile p).rest.length < c.rest.length := by
  have h : (c.skipWhile p).rest.length = (ch :: r).length - ((ch :: r).takeWhile p).length := by
    rw [skipWhile, skip, hc, List.length_drop]
  rw [h, hc, List.takeWhile_cons_of_pos hp, List.length_cons, List.length_cons]
  exact Nat.sub_lt (Nat.succ_pos _) (Nat.succ_pos _)

theorem length_newline_lt {c : Cursor} (h : c.rest ≠ []) :
    c.newline.rest.length < c.rest.length := by
  unfold newline
  split
  · next hr => rw [hr]; exact Nat.lt_succ_of_lt (Nat.lt_succ_self _)
  · next hr => rw [hr]; exact Nat.lt_succ_self _
  · next hr => exact absurd hr h

theorem length_newline_le (c : Cursor) : c.newline.rest.length ≤ c.rest.length := by
  by_cases h : c.rest = []
  · simp [newline, h]
  · exact Nat.le_of_lt (length_newline_lt h)

end Cursor

/-- How the end of a line enters a text: the separators `U+2028` and `U+2029` as they are, all
others as a line feed. -/
def breakChar (c : Char) : Char :=
  if c == '\u2028' || c == '\u2029' then c else '\n'

/-- What line breaks inside a scalar come to: a single line feed is a space, the first of several
is dropped, and after any other break all of them stay. -/
def folded : List Char → List Char
  | ['\n'] => [' ']
  | '\n' :: r => r
  | bs => bs

/-- The line breaks from here on and the indentation of the lines that they start.  A tab among
the first `margin` columns of a line is refused. -/
def breaks (margin : Nat) (c : Cursor) : Option (List Char × Cursor) :=
  match _h : c.rest with
  | [] => some ([], c)
  | ch :: _ =>
    if !isBreak ch then some ([], c)
    else if ((c.newline.rest.takeWhile isSpace).take margin).contains '\t' then none
    else
      match breaks margin (c.newline.skipWhile isSpace) with
      | none => none
      | some (bs, d) => some (breakChar ch :: bs, d)
termination_by c.rest.length
decreasing_by
  exact Nat.lt_of_le_of_lt (c.newline.length_skipWhile_le isSpace)
    (Cursor.length_newline_lt (by simp [_h]))

theorem length_breaks_le {margin : Nat} {c d : Cursor} {bs : List Char}
    (h : breaks margin c = some (bs, d)) : d.rest.length ≤ c.rest.length := by
  fun_induction breaks margin c generalizing bs with
  | case1 c hc => simp_all
  | case2 c ch r hc hch => simp_all
  | case3 => simp at h
  | case4 => simp at h
  | case5 c ch r hc hch ht bs' d' he ih =>
    obtain ⟨_, rfl⟩ : breakChar ch :: bs' = bs ∧ d' = d := by simpa using h
    have h₁ := c.newline.length_skipWhile_le isSpace
    have h₂ : c.newline.rest.length < c.rest.length := Cursor.length_newline_lt (by simp [hc])
    have h₃ := ih he
    omega

theorem length_breaks_lt {margin : Nat} {c d : Cursor} {ch : Char} {r bs : List Char}
    (hc : c.rest = ch :: r) (hch : isBreak ch = true) (h : breaks margin c = some (bs, d)) :
    d.rest.length < c.rest.length := by
  have h₁ := c.newline.length_skipWhile_le isSpace
  have h₂ : c.newline.rest.length < c.rest.length := Cursor.length_newline_lt (by simp [hc])
  rw [breaks] at h
  split at h
  · simp_all
  · rename_i c' r' hc'
    obtain ⟨rfl, rfl⟩ : c' = ch ∧ r' = r := by simpa [hc, eq_comm] using hc'
    rw [if_neg (by simp [hch])] at h
    split at h
    · simp at h
    · split at h
      · simp at h
      · rename_i bs' d' he
        obtain ⟨_, rfl⟩ : breakChar c' :: bs' = bs ∧ d' = d := by simpa using h
        have h₃ := length_breaks_le he
        omega

end ImageRecipe.Yaml
