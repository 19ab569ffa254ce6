import ImageRecipe.Yaml.Cursor
import ImageRecipe.Yaml.Resolve

/-!
# How a text is laid out as a scalar

A text can be written without quotes, in single quotes, in double quotes or,
line by line, as a literal block.  `layout` picks one in which the text reads
back as it is:

* a literal block for a text with a line feed,
* no quotes for a text that nothing in it keeps from being a plain scalar, and
  that as a plain scalar denotes itself,
* single quotes for what can stand in them,
* double quotes, with escapes, for everything else.
-/

namespace ImageRecipe.Yaml

inductive Layout where
  | plain
  | single
  | double
  | literal
  deriving DecidableEq, Repr

/-- The characters that stand for themselves in every layout.  Tabs and carriage returns do
not. -/
def isPrintable (c : Char) : Bool :=
  let n := c.toNat
  c == '\n' || (0x20 ≤ n && n ≤ 0x7E) || (0xA0 ≤ n && n ≤ 0xD7FF)
    || (0xE000 ≤ n && n ≤ 0xFFFD && n ≠ 0xFEFF) || 0x10000 ≤ n

/-- Whether two characters that satisfy `p` and `q` stand next to each other. -/
def anyPair (p q : Char → Bool) : List Char → Bool
  | a :: b :: r => (p a && q b) || anyPair p q (b :: r)
  | _ => false

/-- The characters that a plain scalar cannot start with. -/
def isIndicator (c : Char) : Bool :=
  "#,[]\x7b\x7d&*!|>'\"%@\x60".toList.contains c

/-- Whether a text is taken for something else than a scalar from its first characters. -/
def startsIndicator : List Char → Bool
  | [] => true
  | c :: r =>
    isIndicator c || ((c == '-' || c == '?') && endsWord r) || (c :: r).take 3 == ['-', '-', '-']
      || (c :: r).take 3 == ['.', '.', '.']

/-- Whether something in a text ends a plain scalar: a colon before a blank or at the end, or a
number sign behind a blank. -/
def endsPlain : List Char → Bool
  | [] => false
  | c :: r => (c == ':' && endsWord r) || (c == ' ' && startsWith '#' r) || endsPlain r

def fitsPlain (s : List Char) : Bool :=
  s.all (fun c => isPrintable c && !isBreak c) && s.head? != some ' ' && s.getLast? != some ' '
    && !startsIndicator s && !endsPlain s

/-- Whether a text can be written in single quotes, where blanks around a line break are lost. -/
def fitsSingle (s : List Char) : Bool :=
  s.all isPrintable && !anyPair isBreak (· == ' ') s && !anyPair (· == ' ') isBreak s

/-- Whether a text can be written as a literal block, in which no line ends in a blank. -/
def fitsLiteral (s : List Char) : Bool :=
  s.all isPrintable && s.getLast? != some ' ' && !anyPair (· == ' ') isBreak s

/-- Whether a text denotes itself as a plain scalar and looks like no number. -/
def denotesItself (s : List Char) : Bool :=
  resolve s = .text && !paddedDigits s

def layout (s : List Char) : Layout :=
  if s.contains '\n' then if fitsLiteral s then .literal else .double
  else if denotesItself s && fitsPlain s then .plain
  else if fitsSingle s then .single
  else .double

end ImageRecipe.Yaml
