import EquationEngine.Arithmetic
import EquationEngine.Double.Printer

/-!
Doubles as a number type of the engine.

The four partial operations are those of the real functions: a power has no value for a negative
base with a fractional exponent and for zero with a negative one, a logarithm none below or at
zero, and a remainder none for an infinite dividend. A result that is infinite though the operands
are finite is an overflow.
-/

namespace EquationEngine.Double

/-- Where a power of doubles has no value. -/
def powFault (x y : Float) : Option Fault :=
  if x.isFinite && y.isFinite then
    if (x < 0 && (toInt? y).isNone) || (x == 0 && y < 0) then some .undefined
    else if (x.pow y).isFinite then none
    else some .overflow
  else none

/-- Where a remainder of doubles has no value, the divisor being other than zero. -/
def remFault (x y : Float) : Option Fault :=
  if isInfinite x && !y.isNaN then some .undefined else none

/-- Where a logarithm of a double has no value. -/
def logFault (x : Float) : Option Fault := if x ≤ 0 then some .undefined else none

/-- Where an exponential of a double has no value. -/
def expFault (x : Float) : Option Fault :=
  if x.isFinite && !x.exp.isFinite then some .overflow else none

instance : Arithmetic Float where
  ofInt := Float.ofInt
  ofDecimal digits places := Float.ofScientific digits true places
  abs := Float.abs
  lt x y := x < y
  le x y := x ≤ y
  isFinite := Float.isFinite
  isInteger x := (toInt? x).isSome
  isEven x := (toInt? x).any (· % 2 == 0)
  pow := Float.pow
  rem := rem
  log := Float.log
  exp := Float.exp
  powFault := powFault
  remFault := remFault
  logFault := logFault
  expFault := expFault
  text := text
  fullText := fullText

end EquationEngine.Double
