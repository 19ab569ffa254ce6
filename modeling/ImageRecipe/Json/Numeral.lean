import ImageRecipe.Json.Tree

/-!
# JSON numbers

A numeral without a fraction and without an exponent is a whole number when it
fits into 64 bits.  Any other numeral is a double, but not always the nearest
one: its digits are collected in 64 bits, those that find no room any more are
dropped, and the result is then scaled by a power of ten, with a rounding at
each of the two steps.
-/

namespace ImageRecipe.Number.Double

def mul? (x y : Double) : Option Double :=
  let s := x.q + y.q
  nearest? (x.m * y.m * bits s.toNat) (bits (-s).toNat)

def div? (x y : Double) : Option Double :=
  let s := x.q - y.q
  nearest? (x.m * bits s.toNat) (y.m * bits (-s).toNat)

/-- The double nearest to a power of ten, for exponents up to 308. -/
def pow10 (e : Nat) : Double :=
  (ofDecimal? 1 e).getD ⟨0, minExponent⟩

/-- A double divided by a power of ten, in steps of at most 308 places. -/
def scaleDown (x : Double) (e : Nat) : Option Double :=
  if e ≤ 308 then x.div? (pow10 e)
  else
    match x.div? (pow10 308) with
    | some y => if y.m = 0 then some y else scaleDown y (e - 308)
    | none => none
termination_by e

/-- A double times a power of ten; `none` when it is greater than any double. -/
def scale (x : Double) (e : Int) : Option Double :=
  if e < 0 then x.scaleDown (-e).toNat
  else if e ≤ 308 then x.mul? (pow10 e.toNat)
  else if x.m = 0 then some x
  else none

end ImageRecipe.Number.Double

namespace ImageRecipe.Json

open Number

/-- Appends digits to a number as long as it stays within 64 bits; also the number of digits
for which that holds. -/
def collect : Nat → List Char → Nat × Nat
  | n, [] => (n, 0)
  | n, c :: r =>
    let next := n * 10 + (c.toNat - '0'.toNat)
    if bits 64 ≤ next then (n, 0)
    else
      let (m, k) := collect next r
      (m, k + 1)

/-- The number of a sign, the digits before and behind the point, and an exponent, if there is
one. -/
def number (negative : Bool) (whole fraction : List Char) (exponent : Option Int) : Tree :=
  let (n, kept) := collect 0 whole
  let (m, places) := collect n fraction
  let dropped := whole.length - kept
  if fraction.isEmpty && exponent.isNone && dropped == 0 && !negative then .int n
  else if fraction.isEmpty && exponent.isNone && dropped == 0 && n ≠ 0 && n ≤ bits 63 then
    .int (-n)
  else
    match (nearest? m 1).bind fun x => x.scale (exponent.getD 0 + dropped - places) with
    | some x => .float (.finite negative x.shortest)
    | none => .overflow

/-- The exponent at the start of a text, if there is one, and the rest; `none` when it has no
digits. -/
def readExponent : List Char → Option (Option Int × List Char)
  | e :: r =>
    if e == 'e' || e == 'E' then
      let unsigned :=
        match r with
        | '+' :: r => r
        | '-' :: r => r
        | _ => r
      (ofDigits? 10 (unsigned.takeWhile Char.isDigit)).map fun n =>
        (some (if r.head? == some '-' then -(n : Int) else n), unsigned.dropWhile Char.isDigit)
    else some (none, e :: r)
  | [] => some (none, [])

/-- The digits behind a point at the start of a text, none when there is no point, and the rest;
`none` when a point has no digits behind it. -/
def readFraction : List Char → Option (List Char × List Char)
  | '.' :: r =>
    let digits := r.takeWhile Char.isDigit
    if digits.isEmpty then none else some (digits, r.dropWhile Char.isDigit)
  | r => some ([], r)

/-- The number at the start of a text, and the rest; `none` when there is none.  A leading zero
stands alone. -/
def readNumber (s : List Char) : Option (Tree × List Char) :=
  let negative := s.head? == some '-'
  let unsigned := if negative then s.drop 1 else s
  let whole := unsigned.takeWhile Char.isDigit
  if whole.isEmpty || (whole.head? == some '0' && whole.length ≠ 1) then none
  else do
    let (fraction, r) ← readFraction (unsigned.dropWhile Char.isDigit)
    let (exponent, r) ← readExponent r
    return (number negative whole fraction exponent, r)

end ImageRecipe.Json
