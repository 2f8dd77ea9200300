import EquationEngine.Double.Binary

/-!
The shortest decimal of a double: the fewest digits that no other double is nearer to.

The reals that round to a double form an interval around it, whose ends belong to it if the
mantissa is even. On the grid of decimals with one digit, two digits, and so on, the two
neighbours of the value are tried; the first grid with a neighbour in the interval gives the
digits.
-/

namespace EquationEngine.Double

/-- A decimal `digits · 10 ^ exponent`. -/
structure Decimal where
  digits : Nat
  exponent : Int
  deriving DecidableEq, Repr

/-- A nonnegative fraction, as numerator and denominator. -/
structure Ratio where
  num : Nat
  den : Nat

namespace Ratio

/-- The fraction `n · 2 ^ e`. -/
def scale2 (n : Nat) (e : Int) : Ratio := ⟨n * pow2 e.toNat, pow2 (-e).toNat⟩

/-- The fraction `n · 10 ^ e`. -/
def scale10 (n : Nat) (e : Int) : Ratio := ⟨n * pow10 e.toNat, pow10 (-e).toNat⟩

def lt (a b : Ratio) : Bool := a.num * b.den < b.num * a.den

def le (a b : Ratio) : Bool := a.num * b.den ≤ b.num * a.den

end Ratio

namespace Binary

/-- Whether a fraction rounds to the absolute value of a double. -/
def roundsFrom (b : Binary) (r : Ratio) : Bool :=
  let below :=
    if b.mantissa = pow2 52 && -1074 < b.exponent then
      Ratio.scale2 (4 * b.mantissa - 1) (b.exponent - 2)
    else Ratio.scale2 (2 * b.mantissa - 1) (b.exponent - 1)
  let above := Ratio.scale2 (2 * b.mantissa + 1) (b.exponent - 1)
  if b.mantissa % 2 = 0 then below.le r && r.le above else below.lt r && r.lt above

/-- The least power of ten above the absolute value of a double other than zero. -/
def magnitude (b : Binary) : Int :=
  let value := Ratio.scale2 b.mantissa b.exponent
  let guess := Int.fdiv (((Nat.log2 b.mantissa : Int) + b.exponent) * 30103) 100000
  if value.lt (.scale10 1 guess) then guess
  else if value.lt (.scale10 1 (guess + 1)) then guess + 1
  else guess + 2

/-- The neighbour of a double on the grid of multiples of `10 ^ exponent` that rounds to it, if
there is one: the nearer of two, and the even one of two that are equally near. -/
def onGrid? (b : Binary) (exponent : Int) : Option Decimal :=
  let value := Ratio.scale2 b.mantissa b.exponent
  let num := value.num * pow10 (-exponent).toNat
  let den := value.den * pow10 exponent.toNat
  let low := num / den
  let lowFits := b.roundsFrom (.scale10 low exponent)
  let highFits := b.roundsFrom (.scale10 (low + 1) exponent)
  let twice := 2 * (num % den)
  match lowFits, highFits with
  | true, true =>
    some ⟨if twice < den || (twice = den && low % 2 = 0) then low else low + 1, exponent⟩
  | true, false => some ⟨low, exponent⟩
  | false, true => some ⟨low + 1, exponent⟩
  | false, false => none

/-- The first decimal found on the grids with a given number of digits and more. -/
def shortestFrom (b : Binary) (magnitude : Int) : (grids count : Nat) → Decimal
  | 0, count => ⟨0, magnitude - count⟩
  | grids + 1, count =>
    match b.onGrid? (magnitude - count) with
    | some d => d
    | none => shortestFrom b magnitude grids (count + 1)

/-- The shortest decimal of a double other than zero; seventeen digits always suffice. -/
def shortest (b : Binary) : Decimal := b.shortestFrom b.magnitude 17 1

end Binary

end EquationEngine.Double
