import ImageRecipe.Number.Digits
import ImageRecipe.Yaml.PlainScalar

/-!
# Quoted scalars

Between apostrophes a doubled apostrophe stands for one and nothing else is
special.  Between double quotes a backslash starts an escape, which may also
be an escaped end of line.  In both, line breaks are folded, and a document
marker at the start of a line is refused.
-/

namespace ImageRecipe.Yaml

open Number

def escapeChar (c : Char) : Option Char :=
  match c with
  | '0' => some '\x00'
  | 'a' => some '\x07'
  | 'b' => some '\x08'
  | 't' => some '\t'
  | '\t' => some '\t'
  | 'n' => some '\n'
  | 'v' => some '\x0b'
  | 'f' => some '\x0c'
  | 'r' => some '\r'
  | 'e' => some '\x1b'
  | ' ' => some ' '
  | '"' => some '"'
  | '/' => some '/'
  | '\\' => some '\\'
  | 'N' => some '\u0085'
  | '_' => some '\u00a0'
  | 'L' => some '\u2028'
  | 'P' => some '\u2029'
  | _ => none

/-- How many hexadecimal digits follow the letter of a numeric escape. -/
def escapeWidth (c : Char) : Option Nat :=
  match c with
  | 'x' => some 2
  | 'u' => some 4
  | 'U' => some 8
  | _ => none

/-- The character with a number; surrogates and numbers beyond the last character have none. -/
def charOfNumber? (n : Nat) : Option Char :=
  if n.isValidChar then some (Char.ofNat n) else none

/-- The character that an escape stands for and how many characters follow its letter. -/
def readEscape (c : Char) (r : List Char) : Option (Char × Nat) :=
  match escapeWidth c with
  | some w =>
    let digits := r.take w
    if digits.length < w then none
    else do
      let n ← ofDigits? 16 digits
      let x ← charOfNumber? n
      return (x, w)
  | none => (escapeChar c).map fun x => (x, 0)

/-- A stretch of a quoted scalar without spaces and line ends: its text and the number of
characters that it takes up.  An escaped end of line is not part of it. -/
def quotedChunk (double : Bool) : List Char → Option (List Char × Nat)
  | [] => some ([], 0)
  | c :: r =>
    if isSpace c || isBreak c then some ([], 0)
    else if double then
      if c == '"' then some ([], 0)
      else if c == '\\' then
        match r with
        | [] => none
        | e :: r' =>
          if isBreak e then some ([], 0)
          else
            match readEscape e r' with
            | none => none
            | some (x, w) =>
              (quotedChunk double (r'.drop w)).map fun t => (x :: t.1, t.2 + w + 2)
      else (quotedChunk double r).map fun t => (c :: t.1, t.2 + 1)
    else
      if c == '\'' then
        match r with
        | '\'' :: r' => (quotedChunk double r').map fun t => ('\'' :: t.1, t.2 + 2)
        | _ => some ([], 0)
      else (quotedChunk double r).map fun t => (c :: t.1, t.2 + 1)
termination_by s => s.length
decreasing_by all_goals (simp only [List.length_cons, List.length_drop]; omega)

/-- A quoted scalar from behind its first quote, or from the start of a later line, on: its text
and the place behind its last quote. -/
def quotedRest (double : Bool) (c : Cursor) : Option (List Char × Cursor) :=
  if c.atMarker then none
  else
    match quotedChunk double c.rest with
    | none => none
    | some (text, n) =>
      let d := c.skip n
      match _hd : d.rest with
      | [] => none
      | q :: _ =>
        if q == (if double then '"' else '\'') then some (text, d.skip 1)
        else if _hq : isSpace q || isBreak q then
          match _hb : breaks 0 (d.skipWhile isSpace) with
          | none => none
          | some (bs, e) =>
            (quotedRest double e).map fun t =>
              (text ++ separation (d.rest.takeWhile isSpace) bs ++ t.1, t.2)
        else
          match _hb : breaks 0 ((d.skip 1).newline.skipWhile isSpace) with
          | none => none
          | some (bs, e) => (quotedRest double e).map fun t => (text ++ bs ++ t.1, t.2)
termination_by c.rest.length
decreasing_by
  · have h₀ : d.rest.length ≤ c.rest.length := c.length_skip_le n
    have h₁ := d.length_skipWhile_le isSpace
    have h₂ := length_breaks_le _hb
    by_cases hs : isSpace q = true
    · have h₃ := Cursor.length_skipWhile_lt _hd hs
      omega
    · have hk : isBreak q = true := by simpa [hs] using _hq
      have he : (d.skipWhile isSpace).rest = d.rest := by
        simp [Cursor.skipWhile, Cursor.skip, _hd, hs]
      have h₃ := length_breaks_lt (he.trans _hd) hk _hb
      omega
  · have h₀ : d.rest.length ≤ c.rest.length := c.length_skip_le n
    have h₁ : (d.skip 1).rest.length < d.rest.length := by simp [Cursor.skip, _hd]
    have h₂ := (d.skip 1).length_newline_le
    have h₃ := (d.skip 1).newline.length_skipWhile_le isSpace
    have h₄ := length_breaks_le _hb
    omega

def quotedScalar (double : Bool) (c : Cursor) : Option (List Char × Cursor) :=
  quotedRest double (c.skip 1)

end ImageRecipe.Yaml
