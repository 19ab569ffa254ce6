import ImageRecipe.Yaml.BlockScalar
import ImageRecipe.Yaml.QuotedScalar
import ImageRecipe.Yaml.Tag

/-!
# From text to tokens

`tokens` reads a text into its tokens.  Two things take more than one look at
the text.  Indentation opens and closes block collections: `Scan.indents`
holds the columns of those that are open.  And a token may turn out to be a
key when a colon follows it later on the same line: `Scan.key` remembers where
such a candidate stands, one for each level of brackets, so that the mark
before the key can be put in its place.

Where the text is malformed the tokens break off without a `streamEnd`.  A
token of which it is still open whether it starts a key is then lost together
with all that follow it.
-/

namespace ImageRecipe.Yaml

/-- A token that may turn out to be a key. -/
structure Candidate where
  /-- It stands where nothing but a key can stand. -/
  required : Bool
  /-- The number of tokens before it. -/
  number : Nat
  index : Nat
  line : Nat
  column : Nat
  deriving DecidableEq, Repr

/-- Keys are written on one line and within 1024 characters. -/
def Candidate.expired (k : Candidate) (c : Cursor) : Bool :=
  k.line < c.line || k.index + 1024 < c.index

structure Scan where
  cursor : Cursor
  /-- The columns of the open block collections, the innermost first. -/
  indents : List Nat := []
  /-- The candidate on the present level of brackets. -/
  key : Option Candidate := none
  /-- The candidates on the levels around it, the innermost first. -/
  outer : List (Option Candidate) := []
  /-- Whether the next token may be a key. -/
  keyAllowed : Bool := true
  /-- The tokens so far, the last one first. -/
  tokens : List Token := []
  count : Nat := 0
  deriving Repr

namespace Scan

def flow (s : Scan) : Bool :=
  !s.outer.isEmpty

/-- The least column of what belongs to the innermost block collection. -/
def margin (s : Scan) : Nat :=
  match s.indents with
  | [] => 0
  | n :: _ => n + 1

def push (s : Scan) (t : Token) : Scan :=
  { s with tokens := t :: s.tokens, count := s.count + 1 }

/-- The tokens with some more put in behind the first `number`; `more` lists them last first. -/
def insert (s : Scan) (number : Nat) (more : List Token) : Scan :=
  let later := s.count - number
  { s with tokens := s.tokens.take later ++ more ++ s.tokens.drop later
           count := s.count + more.length }

/-! ### Candidates for keys -/

/-- Gives up a candidate, unless nothing else could stand there. -/
def release : Option Candidate → Option (Option Candidate)
  | none => some none
  | some k => if k.required then none else some none

/-- Gives up a candidate that the place reached leaves behind. -/
def refresh (c : Cursor) : Option Candidate → Option (Option Candidate)
  | none => some none
  | some k => if k.expired c then release (some k) else some (some k)

def refreshKeys (s : Scan) : Option Scan := do
  let key ← refresh s.cursor s.key
  let outer ← s.outer.mapM (refresh s.cursor)
  return { s with key, outer }

/-- Gives up the candidate on the present level. -/
def dropKey (s : Scan) : Option Scan := do
  let key ← release s.key
  return { s with key }

/-- The next token may be a key, if a key may stand there at all. -/
def saveKey (s : Scan) : Option Scan :=
  if s.keyAllowed then do
    let s ← s.dropKey
    let c := s.cursor
    let required := !s.flow && s.indents.head? == some c.column
    return { s with key := some ⟨required, s.count, c.index, c.line, c.column⟩ }
  else some s

/-! ### Indentation -/

/-- Closes the block collections that are indented deeper than `keep` allows. -/
def closeBlocks (keep : Nat → Bool) (s : Scan) : Scan :=
  if s.flow then s
  else
    let deeper := s.indents.takeWhile (!keep ·)
    { s with indents := s.indents.dropWhile (!keep ·)
             tokens := List.replicate deeper.length .blockEnd ++ s.tokens
             count := s.count + deeper.length }

/-- Opens a block collection at a column, unless one is open there, with its first token behind
the first `number`. -/
def openBlock (column number : Nat) (start : Token) (s : Scan) : Scan :=
  if s.flow || column < s.margin then s
  else { s.insert number [start] with indents := column :: s.indents }

/-! ### Tokens -/

/-- A token of `n` characters on one line. -/
def take (s : Scan) (t : Token) (n : Nat) : Scan :=
  { s.push t with cursor := s.cursor.skip n }

def finish (s : Scan) : Option Scan := do
  let c := s.cursor
  let c := if c.column = 0 then c else { c with column := 0, line := c.line + 1 }
  let s ← (closeBlocks (fun _ => false) { s with cursor := c }).dropKey
  return { s with keyAllowed := false }.push .streamEnd

/-- A directive or a document marker, which closes all block collections. -/
def topLevel (s : Scan) (t : Token) (n : Nat) : Option Scan := do
  let s ← (s.closeBlocks fun _ => false).dropKey
  return { s with keyAllowed := false }.take t n

def directive (s : Scan) : Option Scan := do
  let (t, n) ← readDirective (s.cursor.rest.drop 1)
  let s ← s.topLevel t (n + 1)
  return { s with cursor := s.cursor.newline }

def openFlow (s : Scan) (t : Token) : Option Scan := do
  let s ← s.saveKey
  return { s with key := none, outer := s.key :: s.outer, keyAllowed := true }.take t 1

def closeFlow (s : Scan) (t : Token) : Option Scan := do
  let s ← s.dropKey
  let s : Scan :=
    match s.outer with
    | [] => s
    | k :: r => { s with key := k, outer := r }
  return { s with keyAllowed := false }.take t 1

def flowEntry (s : Scan) : Option Scan := do
  let s ← s.dropKey
  return { s with keyAllowed := true }.take .flowEntry 1

def blockEntry (s : Scan) : Option Scan :=
  if !s.flow && !s.keyAllowed then none
  else do
    let s ← (s.openBlock s.cursor.column s.count .blockSequenceStart).dropKey
    return { s with keyAllowed := true }.take .blockEntry 1

def explicitKey (s : Scan) : Option Scan :=
  if !s.flow && !s.keyAllowed then none
  else do
    let s ← (s.openBlock s.cursor.column s.count .blockMappingStart).dropKey
    return { s with keyAllowed := !s.flow }.take .key 1

/-- A colon, which makes a key of the candidate on its level. -/
def value (s : Scan) : Option Scan :=
  match s.key with
  | some k =>
    let s := (s.insert k.number [.key]).openBlock k.column k.number .blockMappingStart
    some ({ s with key := none, keyAllowed := false }.take .value 1)
  | none =>
    if s.flow then some ({ s with keyAllowed := false }.take .value 1)
    else if !s.keyAllowed then none
    else
      let s := s.openBlock s.cursor.column s.count .blockMappingStart
      some ({ s with keyAllowed := true }.take .value 1)

def anchor (s : Scan) (t : List Char → Token) : Option Scan := do
  let s ← s.saveKey
  let name ← anchorName (s.cursor.rest.drop 1)
  return { s with keyAllowed := false }.take (t name) (name.length + 1)

def tag (s : Scan) : Option Scan := do
  let s ← s.saveKey
  let (t, n) ← readTag s.flow (s.cursor.rest.drop 1)
  return { s with keyAllowed := false }.take t (n + 1)

def block (s : Scan) (literal : Bool) : Option Scan := do
  let s ← s.dropKey
  let (text, c) ← blockScalar literal s.margin s.cursor
  let t := Token.scalar (if literal then .literal else .folded) text
  return { s with keyAllowed := true, cursor := c }.push t

def quoted (s : Scan) (double : Bool) : Option Scan := do
  let s ← s.saveKey
  let (text, c) ← quotedScalar double s.cursor
  return { s with keyAllowed := false, cursor := c }.push (.scalar .quoted text)

def plain (s : Scan) : Option Scan := do
  let s ← s.saveKey
  let (text, c, later) ← plainScalar s.flow s.margin s.cursor
  return { s with keyAllowed := later, cursor := c }.push (.scalar .plain text)

def startsPlain (s : Scan) (c : Char) (r : List Char) : Bool :=
  if c == '-' then !r.head?.any isSpace
  else if c == '?' || c == ':' then !s.flow && !endsWord r
  else !isSpace c && !isBreak c && !",[]\x7b\x7d#&*!|>'\"%@\x60".toList.contains c

/-! ### The way to the next token -/

/-- Behind the spaces and the comment on a line.  A tab counts as a space where no key may
stand. -/
def toContent (flow keyAllowed : Bool) (c : Cursor) : Cursor :=
  (c.skipMark.skipWhile fun x => x == ' ' || (x == '\t' && (flow || !keyAllowed))).skipComment

theorem length_toContent_le (flow keyAllowed : Bool) (c : Cursor) :
    (toContent flow keyAllowed c).rest.length ≤ c.rest.length :=
  Nat.le_trans (Cursor.length_skipComment_le _)
    (Nat.le_trans (Cursor.length_skipWhile_le _ _) c.length_skipMark_le)

/-- Behind spaces, comments and line ends.  A new line is a place for a key unless it is inside
brackets. -/
def toToken (flow keyAllowed : Bool) (c : Cursor) : Bool × Cursor :=
  let d := toContent flow keyAllowed c
  match _h : d.rest with
  | [] => (keyAllowed, d)
  | ch :: _ => if isBreak ch then toToken flow (keyAllowed || !flow) d.newline else (keyAllowed, d)
termination_by c.rest.length
decreasing_by
  have h : d.newline.rest.length < d.rest.length := Cursor.length_newline_lt (by simp [_h])
  exact Nat.lt_of_lt_of_le h (length_toContent_le flow keyAllowed c)

def token (s : Scan) : Option Scan :=
  match s.cursor.rest with
  | [] => s.finish
  | c :: r =>
    if s.cursor.column == 0 && c == '%' then s.directive
    else if s.cursor.column == 0 && startsMarker '-' (c :: r) then s.topLevel .documentStart 3
    else if s.cursor.column == 0 && startsMarker '.' (c :: r) then s.topLevel .documentEnd 3
    else if c == '[' then s.openFlow .flowSequenceStart
    else if c == '{' then s.openFlow .flowMappingStart
    else if c == ']' then s.closeFlow .flowSequenceEnd
    else if c == '}' then s.closeFlow .flowMappingEnd
    else if c == ',' then s.flowEntry
    else if c == '-' && endsWord r then s.blockEntry
    else if c == '?' && (s.flow || endsWord r) then s.explicitKey
    else if c == ':' && (s.flow || endsWord r) then s.value
    else if c == '*' then s.anchor .alias
    else if c == '&' then s.anchor .anchor
    else if c == '!' then s.tag
    else if c == '|' && !s.flow then s.block true
    else if c == '>' && !s.flow then s.block false
    else if c == '\'' then s.quoted false
    else if c == '"' then s.quoted true
    else if s.startsPlain c r then s.plain
    else none

/-- The next token, with the block collections that it closes. -/
def step (s : Scan) : Option Scan := do
  let (keyAllowed, cursor) := toToken s.flow s.keyAllowed s.cursor
  let s ← refreshKeys { s with keyAllowed, cursor }
  let s ← (s.closeBlocks (· ≤ s.cursor.column)).token
  s.refreshKeys

/-- The tokens that no candidate holds back. -/
def settled (s : Scan) : List Token :=
  let numbers := (s.key :: s.outer).filterMap fun k => k.map Candidate.number
  s.tokens.reverse.take (numbers.foldl min s.count)

/-- The tokens from here to the end of the text, or to where it is malformed.  Every token but
the end takes up at least one character, so `fuel` need not be more than the number of characters
and one. -/
def run : (fuel : Nat) → Scan → List Token
  | 0, s => s.settled
  | n + 1, s =>
    match s.step with
    | none => s.settled
    | some t => if t.tokens.head? == some .streamEnd then t.tokens.reverse else run n t

end Scan

/-! ### Whole texts -/

def isAllowed (c : Char) : Bool :=
  let n := c.toNat
  c == '\t' || c == '\n' || c == '\r' || (0x20 ≤ n && n ≤ 0x7E) || n == 0x85
    || (0xA0 ≤ n && n ≤ 0xD7FF) || (0xE000 ≤ n && n ≤ 0xFFFD) || 0x10000 ≤ n

def tokens (text : List Char) : List Token :=
  if text.all isAllowed then Scan.run (text.length + 1) { cursor := { rest := text } } else []

end ImageRecipe.Yaml
