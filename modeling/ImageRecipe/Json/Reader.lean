import ImageRecipe.Json.Numeral

/-!
# Reading JSON

`read` turns a text into its tree.  Every function here takes what it needs
off the text and hands on the rest.  At a fault it hands on nothing, so that
all that encloses the fault breaks off there as well.
-/

namespace ImageRecipe.Json

open Number

/-- The characters between tokens. -/
def isBlank (c : Char) : Bool :=
  c == ' ' || c == '\t' || c == '\n' || c == '\r'

/-! ### Strings -/

/-- What a string is written with: a character or a UTF-16 code unit. -/
inductive Piece where
  | char (c : Char)
  | unit (n : Nat)
  deriving DecidableEq, Repr

def unescape : Char → Option Char
  | '"' => some '"'
  | '\\' => some '\\'
  | '/' => some '/'
  | 'b' => some '\x08'
  | 'f' => some '\x0c'
  | 'n' => some '\n'
  | 'r' => some '\r'
  | 't' => some '\t'
  | _ => none

/-- The pieces of a string behind its opening quote, and what follows the closing one. -/
def pieces : List Char → Option (List Piece × List Char)
  | [] => none
  | '"' :: r => some ([], r)
  | '\\' :: 'u' :: a :: b :: c :: d :: r => do
    let n ← ofDigits? 16 [a, b, c, d]
    let (ps, r) ← pieces r
    return (.unit n :: ps, r)
  | '\\' :: c :: r => do
    let c ← unescape c
    let (ps, r) ← pieces r
    return (.char c :: ps, r)
  | c :: r =>
    if c < ' ' || c == '\\' then none
    else do
      let (ps, r) ← pieces r
      return (.char c :: ps, r)

/-- Whether a code unit is the first or the second half of a surrogate pair. -/
def isHighUnit (n : Nat) : Bool :=
  0xD800 ≤ n && n < 0xDC00

def isLowUnit (n : Nat) : Bool :=
  0xDC00 ≤ n && n < 0xE000

/-- The characters of a string; `none` when half of a surrogate pair stands alone. -/
def assemble : List Piece → Option (List Char)
  | [] => some []
  | .char c :: r => (assemble r).map (c :: ·)
  | .unit n :: r =>
    if isLowUnit n then none
    else if isHighUnit n then
      match r with
      | .unit m :: r =>
        if isLowUnit m then
          (assemble r).map (Char.ofNat (0x10000 + (n - 0xD800) * 0x400 + (m - 0xDC00)) :: ·)
        else none
      | _ => none
    else (assemble r).map (Char.ofNat n :: ·)

def ofPieces (ps : List Piece) : Tree :=
  match assemble ps with
  | some s => .string (String.ofList s)
  | none => .unpaired

/-! ### Values -/

def words : List (List Char × Tree) :=
  [("null".toList, .null), ("true".toList, .bool true), ("false".toList, .bool false)]

/-- A place from which on there is no JSON. -/
def fault : Tree × List Char :=
  (.broken, [])

def readPlain (s : List Char) : Tree × List Char :=
  match words.find? fun w => w.1.isPrefixOf s with
  | some w => (w.2, s.drop w.1.length)
  | none => (readNumber s).getD fault

/-- Where the next item or member of a collection starts, if not at the first one, behind the
comma; a collection does not end behind a comma. -/
def nextItem (first : Bool) (close : Char) (s : List Char) : Option (List Char) :=
  if first then some s
  else
    match s with
    | ',' :: r =>
      let r := r.dropWhile isBlank
      if r.head? == some close then none else some r
    | _ => none

mutual

def value : (fuel : Nat) → List Char → Tree × List Char
  | 0, _ => fault
  | n + 1, s =>
    match s.dropWhile isBlank with
    | [] => fault
    | '"' :: r => ((pieces r).map fun x => (ofPieces x.1, x.2)).getD fault
    | '[' :: r =>
      let (ts, r) := items true n r
      (.array ts, r)
    | '{' :: r =>
      let (ms, r) := members true n r
      (.object ms, r)
    | c :: r => readPlain (c :: r)
termination_by structural fuel => fuel

/-- The items of an array behind its opening bracket, or behind an item. -/
def items (first : Bool) : (fuel : Nat) → List Char → List Tree × List Char
  | 0, _ => ([.broken], [])
  | n + 1, s =>
    match s.dropWhile isBlank with
    | ']' :: r => ([], r)
    | s =>
      match nextItem first ']' s with
      | none => ([.broken], [])
      | some s =>
        let (t, r) := value n s
        let (ts, r) := items false n r
        (t :: ts, r)
termination_by structural fuel => fuel

/-- The members of an object behind its opening brace, or behind a member. -/
def members (first : Bool) : (fuel : Nat) → List Char → List (Tree × Tree) × List Char
  | 0, _ => ([(.broken, .broken)], [])
  | n + 1, s =>
    match s.dropWhile isBlank with
    | '}' :: r => ([], r)
    | s =>
      match nextItem first '}' s with
      | none => ([(.broken, .broken)], [])
      | some s =>
        let (k, r) := value n s
        let isKey := match k with | .string _ | .unpaired => true | _ => false
        match r.dropWhile isBlank with
        | ':' :: r =>
          if isKey then
            let (v, r) := value n r
            let (ms, r) := members false n r
            ((k, v) :: ms, r)
          else ([(k, .broken)], [])
        | _ => ([(k, .broken)], [])
termination_by structural fuel => fuel

end

/-- A text as a tree, and whether the text ends behind it. -/
def read (text : String) : Tree × Bool :=
  let s := text.toList
  let (t, r) := value (2 * s.length + 4) s
  (t, r.all isBlank)

end ImageRecipe.Json
