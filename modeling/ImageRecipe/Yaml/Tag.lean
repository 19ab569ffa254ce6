import ImageRecipe.Number.Digits
import ImageRecipe.Yaml.Cursor
import ImageRecipe.Yaml.Token

/-!
# Tags and directives

The parts of a YAML text that are written on one line with marks of their own:
anchors and aliases, tags, and the directives before a document.  Every reader
takes the text from a mark on and returns what it read together with the
number of characters that say it.
-/

namespace ImageRecipe.Yaml

open Number

/-! ### Anchors -/

def anchorName (s : List Char) : Option (List Char) :=
  let name := s.takeWhile isWord
  let r := s.dropWhile isWord
  if name.isEmpty then none
  else if endsWord r || r.head?.any fun c => "?:,]\x7d%@\x60".toList.contains c then some name
  else none

/-! ### Tags -/

/-- The characters of tags; a verbatim tag may hold flow marks besides. -/
def isTagChar (verbatim : Bool) (c : Char) : Bool :=
  isWord c || ";/?:@&=+$.%!~*'()".toList.contains c
    || (verbatim && (c == ',' || c == '[' || c == ']'))

/-- An octet written as a percent sign and two hexadecimal digits. -/
def percentOctet : List Char → Option Nat
  | '%' :: a :: b :: _ => ofDigits? 16 [a, b]
  | _ => none

/-- The octets that follow the first of a character, six bits each. -/
def percentTail : (count : Nat) → Nat → List Char → Option Nat
  | 0, n, _ => some n
  | k + 1, n, s =>
    match percentOctet s with
    | some o => if o / 64 = 2 then percentTail k (n * 64 + o % 64) (s.drop 3) else none
    | none => none

def percentChar (s : List Char) : Option (Char × Nat) :=
  match percentOctet s with
  | none => none
  | some o =>
    if o < 0x80 then some (Char.ofNat o, 1)
    else if o / 32 = 6 then (percentTail 1 (o % 32) (s.drop 3)).map fun n => (Char.ofNat n, 2)
    else if o / 16 = 14 then (percentTail 2 (o % 16) (s.drop 3)).map fun n => (Char.ofNat n, 3)
    else if o / 8 = 30 then (percentTail 3 (o % 8) (s.drop 3)).map fun n => (Char.ofNat n, 4)
    else none

/-- The characters of a tag from here on, escaped octets decoded. -/
def tagText (verbatim : Bool) : List Char → Option (List Char × Nat)
  | [] => some ([], 0)
  | c :: r =>
    if !isTagChar verbatim c then some ([], 0)
    else if c == '%' then
      match percentChar (c :: r) with
      | none => none
      | some (x, w) =>
        (tagText verbatim (r.drop (3 * w - 1))).map fun t => (x :: t.1, t.2 + 3 * w)
    else (tagText verbatim r).map fun t => (c :: t.1, t.2 + 1)
termination_by s => s.length
decreasing_by all_goals (simp only [List.length_cons, List.length_drop]; omega)

/-- A tag from behind its first mark on: its handle, the rest of it, and how many characters say
it.  A lone mark is a tag of its own. -/
def tagBody (s : List Char) : Option (List Char × List Char × Nat) :=
  match s with
  | '<' :: r =>
    match tagText true r with
    | some (text, n) =>
      if n = 0 || !startsWith '>' (r.drop n) then none else some ([], text, n + 2)
    | none => none
  | _ =>
    let word := s.takeWhile isWord
    let r := s.dropWhile isWord
    if startsWith '!' r then
      match tagText false (r.drop 1) with
      | some (text, n) =>
        if n = 0 then none else some ('!' :: word ++ ['!'], text, word.length + 1 + n)
      | none => none
    else
      match tagText false r with
      | some (text, n) =>
        if word.isEmpty && n == 0 then some ([], ['!'], 0)
        else some (['!'], word ++ text, word.length + n)
      | none => none

/-- A tag token from behind its first mark on.  A tag ends like a word, inside brackets also
before a comma. -/
def readTag (flow : Bool) (s : List Char) : Option (Token × Nat) :=
  match tagBody s with
  | some (handle, suffix, n) =>
    let r := s.drop n
    if endsWord r || (flow && startsWith ',' r) then some (.tag handle suffix, n) else none
  | none => none

/-! ### Directives -/

/-- A number of at most nine digits. -/
def versionNumber (s : List Char) : Option (Nat × Nat) :=
  let digits := s.takeWhile Char.isDigit
  if digits.length ≤ 9 then (ofDigits? 10 digits).map fun n => (n, digits.length) else none

def versionBody (s : List Char) : Option (Token × Nat) := do
  let (major, n) ← versionNumber s
  if !startsWith '.' (s.drop n) then none
  else
    let (minor, k) ← versionNumber (s.drop (n + 1))
    return (.version major minor, n + 1 + k)

def handleBody (s : List Char) : Option (Token × Nat) :=
  match s with
  | '!' :: r =>
    let word := r.takeWhile isWord
    let closed := startsWith '!' (r.dropWhile isWord)
    let name := '!' :: word ++ (if closed then ['!'] else [])
    let gap := (s.drop name.length).takeWhile isSpace
    if (!word.isEmpty && !closed) || gap.isEmpty then none
    else
      match tagText true (s.drop (name.length + gap.length)) with
      | some (text, n) =>
        if n = 0 || !endsWord (s.drop (name.length + gap.length + n)) then none
        else some (.handle name text, name.length + gap.length + n)
      | none => none
  | _ => none

/-- A directive from behind its mark on, up to the end of its line. -/
def readDirective (s : List Char) : Option (Token × Nat) := do
  let name := s.takeWhile isWord
  let r := s.dropWhile isWord
  let gap := r.takeWhile isSpace
  let body := r.dropWhile isSpace
  let (token, n) ←
    if !endsWord r then none
    else if name == "YAML".toList then versionBody body
    else if name == "TAG".toList then handleBody body
    else none
  let tail := body.drop n
  let spaces := tail.takeWhile isSpace
  let behind := tail.dropWhile isSpace
  let comment := if startsWith '#' behind then behind.takeWhile (!isBreak ·) else []
  if endsLine (behind.drop comment.length) then
    some (token, name.length + gap.length + n + spaces.length + comment.length)
  else none

end ImageRecipe.Yaml
