import ImageRecipe.Yaml.Cursor

/-!
# Plain scalars

A scalar without quotes is made of chunks of characters, separated by spaces
on one line or by line breaks.  It ends before `: `, before ` #`, inside
brackets also before the marks of the flow style, at a document marker, and
before a line that is not indented deeper than what it stands in.
-/

namespace ImageRecipe.Yaml

def isFlowMark (c : Char) : Bool :=
  c == ',' || c == '[' || c == ']' || c == '{' || c == '}'

/-- The characters up to a space, the end of a line or the end of the scalar.  Inside brackets a
colon before a mark is refused. -/
def plainChunk (flow : Bool) : List Char → Option (List Char)
  | [] => some []
  | c :: r =>
    if isSpace c || isBreak c then some []
    else if c == ':' && flow && (startsWith '?' r || r.head?.any isFlowMark) then none
    else if c == ':' && endsWord r then some []
    else if flow && isFlowMark c then some []
    else (plainChunk flow r).map (c :: ·)

/-- What separates two chunks: spaces on a line, or line breaks. -/
def separation (spaces breaks : List Char) : List Char :=
  if breaks.isEmpty then spaces else folded breaks

@[simp] theorem plainChunk_nil (flow : Bool) : plainChunk flow [] = some [] := rfl

/-- A plain scalar from the end of a chunk on: the rest of its text, the place behind it, and
whether that place is on a later line.  Spaces and line breaks after the last chunk belong to what
is left behind, not to the text. -/
def plainRest (flow : Bool) (margin : Nat) (c : Cursor) : Option (List Char × Cursor × Bool) :=
  match _hb : breaks margin (c.skipWhile isSpace) with
  | none => none
  | some (bs, d) =>
    let spaces := c.rest.takeWhile isSpace
    if spaces.isEmpty && bs.isEmpty then some ([], c, false)
    else if !flow && d.column < margin then some ([], d, !bs.isEmpty)
    else if d.atMarker || startsWith '#' d.rest then some ([], d, !bs.isEmpty)
    else
      match _hc : plainChunk flow d.rest with
      | none => none
      | some [] => some ([], d, !bs.isEmpty)
      | some (ch :: chunk) =>
        match plainRest flow margin (d.skip (chunk.length + 1)) with
        | none => none
        | some (text, e, later) => some (separation spaces bs ++ ch :: chunk ++ text, e, later)
termination_by c.rest.length
decreasing_by
  have h₁ := length_breaks_le _hb
  have h₂ := c.length_skipWhile_le isSpace
  have h₃ : d.rest ≠ [] := by intro h; simp [h] at _hc
  have h₄ := List.length_pos_iff.2 h₃
  simp only [Cursor.skip, List.length_drop]
  omega

/-- A plain scalar: its text, the place behind it, and whether that place is on a later line. -/
def plainScalar (flow : Bool) (margin : Nat) (c : Cursor) :
    Option (List Char × Cursor × Bool) := do
  let chunk ← plainChunk flow c.rest
  let (text, d, later) ← plainRest flow margin (c.skip chunk.length)
  return (chunk ++ text, d, later)

end ImageRecipe.Yaml
