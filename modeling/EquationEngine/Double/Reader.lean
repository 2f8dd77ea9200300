import EquationEngine.Text

/-!
Reading doubles from their texts: an optional sign, then digits with an optional point and an
optional power of ten, or one of the words `inf` and `nan`.
-/

namespace EquationEngine.Double

open Text

/-- A sign and what follows it. -/
def takeSign : List Char → Bool × List Char
  | '-' :: cs => (true, cs)
  | '+' :: cs => (false, cs)
  | cs => (false, cs)

/-- The integer written by a whole list of characters. -/
def exponent? (cs : List Char) : Option Int :=
  let (negative, digits) := takeSign cs
  if digits.isEmpty || !digits.all isDigit then none
  else some (if negative then -(natOfDigits digits : Int) else natOfDigits digits)

/-- The double nearest to `digits · 10 ^ exponent`; far outside the range of doubles the power of
ten is not computed. -/
def ofDecimal (digits : Nat) (exponent : Int) : Float :=
  let size : Int := Nat.log2 digits
  if digits = 0 || exponent + size < -400 - size then 0
  else if 400 < exponent then 1 / 0
  else Float.ofScientific digits (exponent < 0) exponent.natAbs

/-- The double written by digits with an optional point and exponent. -/
def unsigned? (cs : List Char) : Option Float :=
  let whole := cs.takeWhile isDigit
  let afterWhole := cs.dropWhile isDigit
  let (fraction, afterFraction) := match afterWhole with
    | '.' :: rest => (rest.takeWhile isDigit, rest.dropWhile isDigit)
    | rest => ([], rest)
  let digits := whole ++ fraction
  if digits.isEmpty then none
  else
    let places : Int := fraction.length
    match afterFraction with
    | [] => some (ofDecimal (natOfDigits digits) (-places))
    | mark :: rest =>
      if mark == 'e' || mark == 'E' then
        (exponent? rest).map fun e => ofDecimal (natOfDigits digits) (e - places)
      else none

/-- The double that a text writes. -/
def read? (text : String) : Option Float :=
  let (negative, cs) := takeSign text.toList
  let size :=
    match String.ofList (cs.map Char.toLower) with
    | "inf" | "infinity" => some (1 / 0)
    | "nan" => some (0 / 0)
    | _ => unsigned? cs
  size.map fun x => if negative then -x else x

end EquationEngine.Double
