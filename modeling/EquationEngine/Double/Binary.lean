/-!
Doubles as exact binary numbers.

A finite double is an integer times a power of two. Whatever has to be exact is computed on these
two integers: whether a double is integral, its remainder by another, and the digits of its text.
-/

namespace EquationEngine.Double

/-- A power of two. -/
def pow2 (n : Nat) : Nat := Nat.pow 2 n

/-- A power of ten. -/
def pow10 (n : Nat) : Nat := Nat.pow 10 n

/-- A finite number `± mantissa · 2 ^ exponent`. -/
structure Binary where
  negative : Bool
  mantissa : Nat
  exponent : Int
  deriving DecidableEq, Repr

/-- The sign bit. -/
def isNegative (x : Float) : Bool := pow2 63 ≤ x.toBits.toNat

/-- The exact value of a double; `none` for infinities and for what is no number. -/
def toBinary? (x : Float) : Option Binary :=
  let bits : Nat := x.toBits.toNat
  let field : Nat := bits / pow2 52 % pow2 11
  let fraction : Nat := bits % pow2 52
  if field = 2047 then none
  else if field = 0 then some ⟨isNegative x, fraction, -1074⟩
  else some ⟨isNegative x, pow2 52 + fraction, (field : Int) - 1075⟩

namespace Binary

/-- The bits of the double with an exactly representable value. -/
def toBits (b : Binary) : Nat :=
  let sign := if b.negative then pow2 63 else 0
  if b.mantissa = 0 then sign
  else
    let top : Int := (Nat.log2 b.mantissa : Int) + b.exponent
    if top < -1022 then sign + b.mantissa * pow2 (b.exponent + 1074).toNat
    else
      let shift := 52 - (Nat.log2 b.mantissa : Int)
      let significand := b.mantissa * pow2 shift.toNat / pow2 (-shift).toNat
      sign + (top + 1023).toNat * pow2 52 + (significand - pow2 52)

/-- The double with an exactly representable value. -/
def toFloat (b : Binary) : Float := Float.ofBits (UInt64.ofNat b.toBits)

/-- The value as an integer, if it is one. -/
def toInt? (b : Binary) : Option Int :=
  let signed (n : Nat) : Int := if b.negative then -(n : Int) else n
  if 0 ≤ b.exponent then some (signed (b.mantissa * pow2 b.exponent.toNat))
  else
    let unit := pow2 (-b.exponent).toNat
    if b.mantissa % unit = 0 then some (signed (b.mantissa / unit)) else none

/-- The exact truncated remainder; the divisor is not zero. -/
def rem (a b : Binary) : Binary :=
  let exponent := min a.exponent b.exponent
  let scale (c : Binary) : Nat := c.mantissa * pow2 (c.exponent - exponent).toNat
  ⟨a.negative, scale a % scale b, exponent⟩

end Binary

/-- The value of an integral double. -/
def toInt? (x : Float) : Option Int := (toBinary? x).bind Binary.toInt?

/-- Whether a double is infinite. -/
def isInfinite (x : Float) : Bool := !x.isFinite && !x.isNaN

/-- The truncated remainder of doubles: exact for finite operands, the dividend itself for an
infinite divisor, and no number where the dividend is infinite or the divisor is zero. -/
def rem (x y : Float) : Float :=
  match toBinary? x, toBinary? y with
  | some a, some b => if b.mantissa = 0 then 0.0 / 0.0 else (a.rem b).toFloat
  | some _, none => if y.isNaN then y else x
  | none, _ => 0.0 / 0.0

end EquationEngine.Double
