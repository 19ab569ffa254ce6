import ImageRecipe.Value
import ImageRecipe.Yaml.Layout

/-!
# YAML, written in blocks

One field or item on a line, and what belongs to it indented by two columns
under it; only a list is not indented deeper than its key.  Lines are never
folded, however long.
-/

namespace ImageRecipe.Yaml

open Number

def spaces (n : Nat) : List Char :=
  List.replicate n ' '

/-! ### Scalars

What follows is the text of a scalar inside a collection, the lines of which
go on at column `n`.
-/

def indentation (n : Nat) (atStart : Bool) : List Char :=
  if atStart then spaces n else []

/-- The inside of single quotes.  A line break is followed by the indentation of the next line. -/
def singleBody (n : Nat) : (atStart : Bool) → List Char → List Char
  | atStart, [] => indentation n atStart
  | atStart, c :: r =>
    if isBreak c then c :: singleBody n true r
    else
      indentation n atStart ++ (if c = '\'' then ['\'', '\''] else [c]) ++ singleBody n false r

def escapeCode (c : Char) : List Char :=
  if c = '\x00' then ['0']
  else if c = '\x07' then ['a']
  else if c = '\x08' then ['b']
  else if c = '\t' then ['t']
  else if c = '\n' then ['n']
  else if c = '\x0b' then ['v']
  else if c = '\x0c' then ['f']
  else if c = '\r' then ['r']
  else if c = '\x1b' then ['e']
  else if c = '"' then ['"']
  else if c = '\\' then ['\\']
  else if c = '\u0085' then ['N']
  else if c = '\u2028' then ['L']
  else if c = '\u2029' then ['P']
  else if c.toNat < 0x100 then 'x' :: hexDigits 'A' 2 c.toNat
  else if c.toNat < 0x10000 then 'u' :: hexDigits 'A' 4 c.toNat
  else 'U' :: hexDigits 'A' 8 c.toNat

def escape (c : Char) : List Char :=
  if isPrintable c && !isBreak c && c != '"' && c != '\\' then [c] else '\\' :: escapeCode c

/-- What follows the bar of a literal block: the indentation, when it cannot be told from the
first line, and whether the line breaks at the end are fewer or more than one. -/
def literalHeader (s : List Char) : List Char :=
  let indent :=
    match s with
    | c :: _ => if c = ' ' || isBreak c then ['2'] else []
    | [] => []
  let chomp :=
    match s.reverse with
    | [] => ['-']
    | [c] => if isBreak c then ['+'] else ['-']
    | c :: d :: _ => if !isBreak c then ['-'] else if isBreak d then ['+'] else []
  indent ++ chomp

/-- The lines of a literal block, of which the empty ones are not indented. -/
def literalBody (n : Nat) : (atStart : Bool) → List Char → List Char
  | atStart, [] => if atStart then [] else ['\n']
  | atStart, c :: r =>
    if isBreak c then c :: literalBody n true r
    else indentation n atStart ++ c :: literalBody n false r

/-- A text as a scalar, up to the end of its last line. -/
def scalar (n : Nat) (s : List Char) : List Char :=
  match layout s with
  | .plain => s ++ ['\n']
  | .single => '\'' :: singleBody n false s ++ ['\'', '\n']
  | .double => '"' :: s.flatMap escape ++ ['"', '\n']
  | .literal => '|' :: literalHeader s ++ '\n' :: literalBody n true s

/-! ### Collections -/

/-- Whether a value starts on the line after its key. -/
def startsLine : Value → Bool
  | .list (_ :: _) | .record (_ :: _) => true
  | _ => false

def valueColumn (n : Nat) : Value → Nat
  | .list (_ :: _) => n
  | _ => n + 2

def afterKey (n : Nat) (v : Value) : List Char :=
  ':' :: if startsLine v then '\n' :: spaces (valueColumn n v) else [' ']

mutual

/-- A value whose lines start at column `n`, but for the indentation of the first. -/
def blockChars (n : Nat) : Value → List Char
  | .none => "null\n".toList
  | .flag true => "true\n".toList
  | .flag false => "false\n".toList
  | .number k => decimal k ++ ['\n']
  | .text s => scalar n s.toList
  | .list [] => "[]\n".toList
  | .list (v :: r) =>
    ('-' :: ' ' :: blockChars (n + 2) v) ++ itemsChars n r
  | .record [] => "\x7b\x7d\n".toList
  | .record ((k, v) :: r) =>
    k.toList ++ afterKey n v ++ blockChars (valueColumn n v) v ++ fieldsChars n r
termination_by structural v => v

def itemsChars (n : Nat) : List Value → List Char
  | [] => []
  | v :: r => spaces n ++ ('-' :: ' ' :: blockChars (n + 2) v) ++ itemsChars n r
termination_by structural items => items

def fieldsChars (n : Nat) : List (String × Value) → List Char
  | [] => []
  | (k, v) :: r =>
    spaces n ++ k.toList ++ afterKey n v ++ blockChars (valueColumn n v) v ++ fieldsChars n r
termination_by structural fields => fields

end

def block (v : Value) : String :=
  String.ofList (blockChars 0 v)

end ImageRecipe.Yaml
