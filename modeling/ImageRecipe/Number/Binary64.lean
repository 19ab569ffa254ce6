import ImageRecipe.Number.Digits

/-!
# Double-precision numbers in text

A decimal numeral is read as the nearest double, an exact half going to the
even neighbour, and a double is written with the fewest digits that read back
as the same double.  Everything is exact arithmetic on natural numbers: a
positive double is `m * 2 ^ q` with `m` below `2 ^ 53`.

`Approx.positional` and `Approx.scientific` are the two ways in which such
digits are laid out.
-/

namespace ImageRecipe.Number

/-- A positive double `m * 2 ^ q`, or zero when `m` is zero. -/
structure Double where
  m : Nat
  q : Int
  deriving DecidableEq, Repr

def minExponent : Int := -1074

def maxExponent : Int := 971

/-- The quotient `a / b` rounded to a whole number, a half going to the even neighbour. -/
def roundDiv (a b : Nat) : Nat :=
  let d := a / b
  let r := a % b
  if 2 * r < b then d
  else if b < 2 * r then d + 1
  else if d % 2 = 0 then d else d + 1

def scaled (a b : Nat) (q : Int) : Nat × Nat :=
  if 0 ≤ q then (a, b * bits q.toNat) else (a * bits (-q).toNat, b)

/-- The double nearest to the fraction `a / b`; `none` when it lies beyond the greatest. -/
def nearest? (a b : Nat) : Option Double :=
  if a = 0 then some ⟨0, minExponent⟩
  else
    let q₀ : Int := max minExponent ((a.log2 : Int) - (b.log2 : Int) - 53)
    let s₀ := scaled a b q₀
    let q := if bits 53 ≤ s₀.1 / s₀.2 then q₀ + 1 else q₀
    let s := scaled a b q
    let m := roundDiv s.1 s.2
    let x : Double := if m = bits 53 then ⟨bits 52, q + 1⟩ else ⟨m, q⟩
    if maxExponent < x.q then none else some x

/-- The double nearest to `n * 10 ^ e`.  Exponents far outside the range of doubles are settled
without computing the power. -/
def ofDecimal? (n : Nat) (e : Int) : Option Double :=
  if n = 0 then some ⟨0, minExponent⟩
  else
    let size : Int := (decimal n).length + e
    if 400 < size then none
    else if size < -400 then some ⟨0, minExponent⟩
    else if 0 ≤ e then nearest? (n * Nat.pow 10 e.toNat) 1
    else nearest? n (Nat.pow 10 (-e).toNat)

/-! ### Fewest digits -/

/-- Digits `d` and a power of ten: the number `d * 10 ^ k`. -/
structure Approx where
  d : Nat
  k : Int
  deriving DecidableEq, Repr

/-- The interval of numbers that read back as `x`, and `x` itself, in units of `2 ^ (q - 2)`;
its ends belong to it when `m` is even. -/
def Double.interval (x : Double) : Nat × Nat × Nat :=
  (if x.m = bits 52 ∧ minExponent < x.q then 4 * x.m - 1 else 4 * x.m - 2, 4 * x.m, 4 * x.m + 2)

def Double.holds (x : Double) (d : Nat) (k : Int) : Bool :=
  let (low, _, high) := x.interval
  let s := x.q - 2
  let p := d * Nat.pow 10 k.toNat * bits (-s).toNat
  let unit := bits s.toNat * Nat.pow 10 (-k).toNat
  if x.m % 2 = 0 then decide (low * unit ≤ p) && decide (p ≤ high * unit)
  else decide (low * unit < p) && decide (p < high * unit)

/-- The neighbours of `x` on the grid of the multiples of `10 ^ k` that read back as `x`: the
nearer one, when there is any. -/
def Double.onGrid? (x : Double) (k : Int) : Option Approx :=
  let s := x.q - 2
  let value := 4 * x.m * bits s.toNat * Nat.pow 10 (-k).toNat
  let unit := Nat.pow 10 k.toNat * bits (-s).toNat
  let d := value / unit
  let below := decide (0 < d) && x.holds d k
  let above := x.holds (d + 1) k
  if below && above then
    let r := value % unit
    if 2 * r < unit || (2 * r == unit && d % 2 == 0) then some ⟨d, k⟩ else some ⟨d + 1, k⟩
  else if below then some ⟨d, k⟩
  else if above then some ⟨d + 1, k⟩
  else none

/-- The first grid with a hit, from the grid of `10 ^ k` down. -/
def Double.shortestFrom (x : Double) : (fuel : Nat) → Int → Approx
  | 0, _ => ⟨0, 0⟩
  | n + 1, k =>
    match x.onGrid? k with
    | some a => a
    | none => x.shortestFrom n (k - 1)

/-- The fewest digits that read back as `x`, the nearest of those to `x`. -/
def Double.shortest (x : Double) : Approx :=
  if x.m = 0 then ⟨0, 0⟩ else x.shortestFrom 660 310

/-- All digits written out, with a point and at least one digit on either side of it. -/
def Approx.positional (a : Approx) : List Char :=
  let ds := decimal a.d
  if 0 ≤ a.k then ds ++ List.replicate a.k.toNat '0' ++ ['.', '0']
  else
    let places := (-a.k).toNat
    let ds := List.replicate (places + 1 - ds.length) '0' ++ ds
    ds.take (ds.length - places) ++ '.' :: ds.drop (ds.length - places)

/-- One digit before the point, and the exponent with its sign and at least two digits. -/
def Approx.scientific (a : Approx) : List Char :=
  let ds := decimal a.d
  let e : Int := a.k + (ds.length - 1 : Nat)
  let fraction := if ds.length = 1 then [] else '.' :: ds.drop 1
  let width := decimal e.natAbs
  ds.take 1 ++ fraction ++ 'e' :: (if 0 ≤ e then '+' else '-')
    :: (if width.length = 1 then '0' :: width else width)

def Approx.magnitude (a : Approx) : Int :=
  a.k + ((decimal a.d).length - 1 : Nat)

/-! ### All numbers -/

/-- A floating-point number with the digits that are written for it. -/
inductive Floating where
  | finite (negative : Bool) (digits : Approx)
  | infinite (negative : Bool)
  | nan
  deriving DecidableEq, Repr

end ImageRecipe.Number
