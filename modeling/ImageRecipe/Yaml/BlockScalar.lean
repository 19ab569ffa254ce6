import ImageRecipe.Yaml.Cursor

/-!
# Block scalars

A literal or folded scalar: a header, which may fix the indentation and say
what becomes of the line breaks at the end, and then the lines that are
indented that far.  Without a number in the header the first line that is not
empty sets the indentation.
-/

namespace ImageRecipe.Yaml

/-- What becomes of the line breaks at the end. -/
inductive Chomp where
  /-- None stays. -/
  | strip
  /-- The first stays. -/
  | clip
  /-- All stay. -/
  | keep
  deriving DecidableEq, Repr

def headerDigit (c : Char) : Option Nat :=
  if '0' ≤ c && c ≤ '9' then some (c.toNat - '0'.toNat) else none

def headerChomp (c : Char) : Option Chomp :=
  if c == '+' then some .keep else if c == '-' then some .strip else none

/-- What a header says after its first mark, in either order, and how many characters say it.  An
indentation of zero is refused. -/
def blockHeader : List Char → Option (Chomp × Option Nat × Nat)
  | [] => some (.clip, none, 0)
  | a :: r =>
    match headerChomp a, headerDigit a with
    | some chomp, _ =>
      match r.head?.bind headerDigit with
      | some 0 => none
      | some n => some (chomp, some n, 2)
      | none => some (chomp, none, 1)
    | none, some 0 => none
    | none, some n =>
      match r.head?.bind headerChomp with
      | some chomp => some (chomp, some n, 2)
      | none => some (.clip, some n, 1)
    | none, none => some (.clip, none, 0)

/-- Behind the spaces at the start of a line, of which at most those before column `limit`
count. -/
def Cursor.indented (limit : Option Nat) (c : Cursor) : Cursor :=
  let spaces := (c.rest.takeWhile (· == ' ')).length
  c.skip (match limit with | some n => min spaces (n - c.column) | none => spaces)

theorem Cursor.length_indented_le (limit : Option Nat) (c : Cursor) :
    (c.indented limit).rest.length ≤ c.rest.length :=
  c.length_skip_le _

/-- The empty lines from here on, up to the indentation of the next line: the line breaks, the
widest indentation of a line, and the place reached.  A tab within the indentation is refused. -/
def emptyLines (limit : Option Nat) (c : Cursor) : Option (List Char × Nat × Cursor) :=
  match _h : (c.indented limit).rest with
  | [] => some ([], (c.indented limit).column, c.indented limit)
  | ch :: _ =>
    if ch == '\t' && limit.all ((c.indented limit).column < ·) then none
    else if !isBreak ch then some ([], (c.indented limit).column, c.indented limit)
    else
      match emptyLines limit (c.indented limit).newline with
      | none => none
      | some (bs, width, d) =>
        some (breakChar ch :: bs, max (c.indented limit).column width, d)
termination_by c.rest.length
decreasing_by
  exact Nat.lt_of_lt_of_le (Cursor.length_newline_lt (by simp [_h])) (c.length_indented_le limit)

theorem length_emptyLines_le {limit : Option Nat} {c d : Cursor} {bs : List Char} {n : Nat}
    (h : emptyLines limit c = some (bs, n, d)) : d.rest.length ≤ c.rest.length := by
  have h₁ := c.length_indented_le limit
  fun_induction emptyLines limit c generalizing bs n with
  | case1 => simp_all
  | case2 => simp at h
  | case3 => simp_all
  | case4 => simp at h
  | case5 c ch r hd ht hb bs' width e he ih =>
    obtain ⟨_, _, rfl⟩ :
        breakChar ch :: bs' = bs ∧ max (c.indented limit).column width = n ∧ e = d := by
      simpa using h
    have h₂ := (c.indented limit).length_newline_le
    have h₃ := ih he ((c.indented limit).newline.length_indented_le limit)
    omega

/-- The lines of a block scalar from the start of the content of a line on: their text, the break
after the last line, the breaks of the empty lines behind it, and the place reached.

`before` is the break before the line and the breaks of the empty lines between; `spaced` says
whether the line above starts with a space. -/
def blockLines (literal : Bool) (indent : Nat) (spaced : Bool) (before : List Char × List Char)
    (c : Cursor) : Option (List Char × (List Char × List Char) × Cursor) :=
  match _h : c.rest with
  | [] => some ([], before, c)
  | ch :: r =>
    if c.column ≠ indent then some ([], before, c)
    else
      let starts := isSpace ch
      let joint :=
        if !literal && before.1 == ['\n'] && !spaced && !starts then
          if before.2.isEmpty then [' '] else before.2
        else before.1 ++ before.2
      let line := (ch :: r).takeWhile fun x => !isBreak x
      let d := c.skip line.length
      match _hd : d.rest with
      | [] => some (joint ++ line, ([], []), d)
      | e :: _ =>
        match _he : emptyLines (some indent) d.newline with
        | none => none
        | some (bs, _, f) =>
          match blockLines literal indent starts ([breakChar e], bs) f with
          | none => none
          | some (text, after, g) => some (joint ++ line ++ text, after, g)
termination_by c.rest.length
decreasing_by
  have h₁ : d.rest.length ≤ c.rest.length := c.length_skip_le _
  have h₂ : d.newline.rest.length < d.rest.length := Cursor.length_newline_lt (by simp [_hd])
  have h₃ := length_emptyLines_le _he
  omega

/-- A block scalar from its first mark on, inside a block of which the least indentation is
`margin`: its text and the place behind it. -/
def blockScalar (literal : Bool) (margin : Nat) (c : Cursor) : Option (List Char × Cursor) :=
  match blockHeader (c.rest.drop 1) with
  | none => none
  | some (chomp, number, n) =>
    let d := ((c.skip (n + 1)).skipWhile isSpace).skipComment
    if !endsLine d.rest then none
    else
      let limit := number.map fun k => (margin - 1) + k
      match emptyLines limit d.newline with
      | none => none
      | some (bs, width, e) =>
        let indent := limit.getD (max width (max margin 1))
        match blockLines literal indent false ([], bs) e with
        | none => none
        | some (text, after, f) =>
          match chomp with
          | .strip => some (text, f)
          | .clip => some (text ++ after.1, f)
          | .keep => some (text ++ after.1 ++ after.2, f)

end ImageRecipe.Yaml
