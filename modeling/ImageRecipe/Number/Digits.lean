/-!
# Numerals

Reading a run of digits in a radix, and writing a number in decimal or in
hexadecimal.  Letters stand for the digits above nine, in either case.
-/

namespace ImageRecipe.Number

/-- The number of values that so many bits have. -/
def bits (width : Nat) : Nat :=
  Nat.pow 2 width

def digitValue (c : Char) : Option Nat :=
  if '0' ≤ c ∧ c ≤ '9' then some (c.toNat - '0'.toNat)
  else if 'a' ≤ c ∧ c ≤ 'z' then some (c.toNat - 'a'.toNat + 10)
  else if 'A' ≤ c ∧ c ≤ 'Z' then some (c.toNat - 'A'.toNat + 10)
  else none

/-- The number that a run of digits continues from `n`; `none` at a character that is no digit
of the radix. -/
def foldDigits (radix : Nat) : Nat → List Char → Option Nat
  | n, [] => some n
  | n, c :: r =>
    match digitValue c with
    | some d => if d < radix then foldDigits radix (n * radix + d) r else none
    | none => none

def ofDigits? (radix : Nat) (s : List Char) : Option Nat :=
  if s.isEmpty then none else foldDigits radix 0 s

def decimal (n : Nat) : List Char :=
  Nat.toDigits 10 n

def signedDecimal : Int → List Char
  | .ofNat n => decimal n
  | .negSucc n => '-' :: decimal (n + 1)

/-- The last `width` hexadecimal digits of a number, given the letters' first. -/
def hexDigits (letter : Char) : (width : Nat) → Nat → List Char
  | 0, _ => []
  | w + 1, n =>
    let d := n / Nat.pow 16 w % 16
    (if d < 10 then Char.ofNat ('0'.toNat + d) else Char.ofNat (letter.toNat + d - 10))
      :: hexDigits letter w n

/-- A number in hexadecimal with small letters and no leading zero. -/
def hex (n : Nat) : List Char :=
  Nat.toDigits 16 n

end ImageRecipe.Number
