/-!
Numbers as the engine sees them.

The engine never fixes a number type. Trees, simplification, parsing and solving are written over
any type with the operations of `Arithmetic`; doubles are one instance, exact fractions another.
Comparisons are Boolean tests, because a number type may hold values that compare with nothing.
-/

namespace EquationEngine

/-- Why an operation has no result at its operands. -/
inductive Fault where
  /-- No real value exists. -/
  | undefined
  /-- The value exists and is too large for the number type. -/
  | overflow
  deriving DecidableEq, Repr

/--
Number types the engine computes with.

The last four operations are partial: `powFault`, `remFault`, `logFault` and `expFault` say where
they have no result, and `pow`, `rem`, `log` and `exp` are then only a limiting value.
-/
class Arithmetic (α : Type) extends Add α, Sub α, Mul α, Div α, Neg α, BEq α where
  /-- The number an integer denotes. -/
  ofInt : Int → α
  /-- The number nearest to `digits / 10 ^ places`. -/
  ofDecimal : (digits places : Nat) → α
  abs : α → α
  lt : α → α → Bool
  le : α → α → Bool
  isFinite : α → Bool
  isInteger : α → Bool
  /-- Whether an integer is even. -/
  isEven : α → Bool
  pow : α → α → α
  /-- The truncated remainder, with the sign of the dividend. -/
  rem : α → α → α
  log : α → α
  exp : α → α
  powFault : α → α → Option Fault
  remFault : α → α → Option Fault
  logFault : α → Option Fault
  expFault : α → Option Fault
  /-- How a constant is written inside an expression. -/
  text : α → String
  /-- How a number is written on its own, always recognisable as a fractional number. -/
  fullText : α → String

namespace Arithmetic

variable {α : Type} [Arithmetic α]

def zero : α := ofInt 0

def one : α := ofInt 1

def isZero (x : α) : Bool := x == zero

def isOne (x : α) : Bool := x == one

/-- Whether a number is neither an integer nor infinite. -/
def isFractional (x : α) : Bool :=
  !isInteger x && (isFinite x || !(x == x))

/-- The form in which a constant is stored: a negative zero loses its sign. -/
def settle (x : α) : α := x + zero

end Arithmetic

end EquationEngine
