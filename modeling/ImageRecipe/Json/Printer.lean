import ImageRecipe.Value
import ImageRecipe.Number.Digits

/-!
# JSON, written compactly

One line with no blanks.  In a string a quote, a backslash and the characters
below `U+0020` are escaped, and all else stands for itself, so that a written
string holds no line break.
-/

namespace ImageRecipe.Json

open Number

def escape (c : Char) : List Char :=
  if c = '"' then ['\\', '"']
  else if c = '\\' then ['\\', '\\']
  else if c = '\x08' then ['\\', 'b']
  else if c = '\t' then ['\\', 't']
  else if c = '\n' then ['\\', 'n']
  else if c = '\x0c' then ['\\', 'f']
  else if c = '\r' then ['\\', 'r']
  else if c.toNat < 0x20 then '\\' :: 'u' :: hexDigits 'a' 4 c.toNat
  else [c]

def quoted (s : List Char) : List Char :=
  '"' :: s.flatMap escape ++ ['"']

/-- An array of items that are already written. -/
def array (items : List (List Char)) : List Char :=
  '[' :: [','].intercalate items ++ [']']

def object (fields : List (List Char)) : List Char :=
  '{' :: [','].intercalate fields ++ ['}']

def stringArray (xs : List String) : String :=
  String.ofList (array (xs.map fun x => quoted x.toList))

def string (s : String) : String :=
  String.ofList (quoted s.toList)

mutual

def compactChars : Value → List Char
  | .none => ['n', 'u', 'l', 'l']
  | .flag true => ['t', 'r', 'u', 'e']
  | .flag false => ['f', 'a', 'l', 's', 'e']
  | .number n => decimal n
  | .text s => quoted s.toList
  | .list items => array (compactItems items)
  | .record fields => object (compactFields fields)
termination_by structural v => v

def compactItems : List Value → List (List Char)
  | [] => []
  | v :: r => compactChars v :: compactItems r
termination_by structural items => items

def compactFields : List (String × Value) → List (List Char)
  | [] => []
  | (k, v) :: r => (quoted k.toList ++ ':' :: compactChars v) :: compactFields r
termination_by structural fields => fields

end

def compact (v : Value) : String :=
  String.ofList (compactChars v)

end ImageRecipe.Json
