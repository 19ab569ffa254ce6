import ImageRecipe.Number.Binary64

/-!
# What plain scalars mean

A scalar without quotes and without a tag denotes a null, a boolean, a whole
number, a floating-point number or, when its spelling is none of theirs, a
text.  `resolve` tells which.  Digits after a leading zero are a text.
-/

namespace ImageRecipe.Yaml

open Number

inductive Meaning where
  | null
  | bool (b : Bool)
  | int (n : Int)
  | float (x : Floating)
  | text
  deriving DecidableEq, Repr

def isNull (s : List Char) : Bool :=
  ["null".toList, "Null".toList, "NULL".toList, "~".toList].contains s

def readBool (s : List Char) : Option Bool :=
  if ["true".toList, "True".toList, "TRUE".toList].contains s then some true
  else if ["false".toList, "False".toList, "FALSE".toList].contains s then some false
  else none

def unsigned (s : List Char) : List Char :=
  match s with
  | '+' :: r => r
  | '-' :: r => r
  | _ => s

/-- Digits only, the first of several being a zero, with or without a sign. -/
def paddedDigits (s : List Char) : Bool :=
  match unsigned s with
  | '0' :: c :: r => (c :: r).all Char.isDigit
  | _ => false

/-- Digits in the radix that a letter after a zero names, or decimal digits. -/
def magnitude? (padded : Bool) (s : List Char) : Option Nat :=
  match s with
  | '0' :: 'x' :: r => ofDigits? 16 r
  | '0' :: 'o' :: r => ofDigits? 8 r
  | '0' :: 'b' :: r => ofDigits? 2 r
  | _ => if padded then none else ofDigits? 10 s

/-- The natural number that a scalar spells, with or without a plus sign. -/
def readNat (s : List Char) : Option Nat :=
  match s with
  | '+' :: r => magnitude? (paddedDigits s) r
  | _ => magnitude? (paddedDigits s) s

/-- The whole number that a scalar spells, within 128 bits. -/
def readInt (s : List Char) : Option Int :=
  match s with
  | '-' :: r =>
    (magnitude? (paddedDigits s) r).bind fun n =>
      if n ≤ bits 127 then some (-(n : Int)) else none
  | _ => (readNat s).bind fun n => if n < bits 128 then some (n : Int) else none

/-! ### Floating-point numbers -/

/-- A decimal numeral in its parts: the digits before and after the point, and the exponent. -/
def numeralParts (s : List Char) : Option (List Char × List Char × Int) :=
  let whole := s.takeWhile Char.isDigit
  let r := s.dropWhile Char.isDigit
  let (fraction, r) :=
    match r with
    | '.' :: r => (r.takeWhile Char.isDigit, r.dropWhile Char.isDigit)
    | _ => ([], r)
  if whole.isEmpty && fraction.isEmpty then none
  else
    match r with
    | [] => some (whole, fraction, 0)
    | e :: r =>
      if e == 'e' || e == 'E' then
        (ofDigits? 10 (unsigned r)).map fun n =>
          (whole, fraction, if r.head? == some '-' then -(n : Int) else n)
      else none

def readDecimal (s : List Char) : Option Double := do
  let (whole, fraction, e) ← numeralParts s
  let n ← foldDigits 10 0 (whole ++ fraction)
  ofDecimal? n (e - fraction.length)

def readFloat (s : List Char) : Option Floating :=
  let positive := match s with | '+' :: r => r | _ => s
  if [".inf".toList, ".Inf".toList, ".INF".toList].contains positive then some (.infinite false)
  else if ["-.inf".toList, "-.Inf".toList, "-.INF".toList].contains s then some (.infinite true)
  else if [".nan".toList, ".NaN".toList, ".NAN".toList].contains s then some .nan
  else (readDecimal (unsigned s)).map fun x => .finite (s.head? == some '-') x.shortest

/-- What a plain scalar without a tag denotes. -/
def resolve (s : List Char) : Meaning :=
  if s.isEmpty || isNull s then .null
  else
    match readBool s with
    | some b => .bool b
    | none =>
      match readInt s with
      | some n => .int n
      | none =>
        if paddedDigits s then .text
        else
          match readFloat s with
          | some x => .float x
          | none => .text

end ImageRecipe.Yaml
