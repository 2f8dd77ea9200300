import EquationEngine.Arithmetic
import EquationEngine.Error

/-!
The operators of expressions, their words, and what they compute on numbers; and the signs of terms.

Constant folding and evaluation both go through `UnaryOp.apply` and `BinaryOp.apply`, so a folded
constant is the value the unfolded operation would have had.
-/

namespace EquationEngine

open Arithmetic

inductive UnaryOp where
  | neg
  | abs
  | log
  | exp
  deriving DecidableEq, Repr

inductive BinaryOp where
  | add
  | sub
  | mul
  | div
  | pow
  | mod
  deriving DecidableEq, Repr

/-- The operators that take any number of operands. -/
inductive NaryOp where
  | sum
  | product
  deriving DecidableEq, Repr

namespace UnaryOp

def word : UnaryOp → String
  | neg => "neg"
  | abs => "abs"
  | log => "log"
  | exp => "exp"

def read : String → Except Error UnaryOp
  | "neg" => .ok neg
  | "abs" => .ok abs
  | "log" => .ok log
  | "exp" => .ok exp
  | w => .error (.unknownUnary w)

/-- The value of an operator at a number. -/
def apply {α : Type} [Arithmetic α] : UnaryOp → α → Except Error α
  | neg, x => .ok (-x)
  | abs, x => .ok (Arithmetic.abs x)
  | log, x =>
    match logFault x with
    | none => .ok (Arithmetic.log x)
    | some _ => .error .logOfNonPositive
  | exp, x =>
    match expFault x with
    | none => .ok (Arithmetic.exp x)
    | some _ => .error .outOfRange

@[simp] theorem read_word (op : UnaryOp) : read op.word = .ok op := by
  cases op <;> rfl

end UnaryOp

namespace BinaryOp

def word : BinaryOp → String
  | add => "+"
  | sub => "-"
  | mul => "*"
  | div => "/"
  | pow => "^"
  | mod => "mod"

def read : String → Except Error BinaryOp
  | "+" => .ok add
  | "-" => .ok sub
  | "*" => .ok mul
  | "/" => .ok div
  | "^" => .ok pow
  | "mod" => .ok mod
  | w => .error (.unknownBinary w)

/-- The value of an operator at two numbers. -/
def apply {α : Type} [Arithmetic α] : BinaryOp → α → α → Except Error α
  | add, x, y => .ok (x + y)
  | sub, x, y => .ok (x - y)
  | mul, x, y => .ok (x * y)
  | div, x, y => if isZero y then .error .divisionByZero else .ok (x / y)
  | pow, x, y =>
    match powFault x y with
    | none => .ok (Arithmetic.pow x y)
    | some .undefined => .error (.noRealPower (fullText x) (fullText y))
    | some .overflow => .error .outOfRange
  | mod, x, y =>
    if isZero y then .error .modulusByZero
    else
      match remFault x y with
      | none => .ok (rem x y)
      | some _ => .error .remainderOfInfinity

@[simp] theorem read_word (op : BinaryOp) : read op.word = .ok op := by
  cases op <;> rfl

end BinaryOp

namespace NaryOp

def word : NaryOp → String
  | sum => "+"
  | product => "*"

def read : String → Except Error NaryOp
  | "+" => .ok sum
  | "*" => .ok product
  | w => .error (.unknownNary w)

/-- The operator that joins two neighbouring operands. -/
def binary : NaryOp → BinaryOp
  | sum => .add
  | product => .mul

/-- The value over no operands. -/
def unit {α : Type} [Arithmetic α] : NaryOp → α
  | sum => zero
  | product => one

@[simp] theorem read_word (op : NaryOp) : read op.word = .ok op := by
  cases op <;> rfl

end NaryOp

/-- The two signs under which a term can stand. -/
inductive Sign where
  | plus
  | minus
  deriving DecidableEq, Repr

namespace Sign

def toInt : Sign → Int
  | plus => 1
  | minus => -1

def flip : Sign → Sign
  | plus => minus
  | minus => plus

@[simp] theorem flip_flip (s : Sign) : s.flip.flip = s := by
  cases s <;> rfl

end Sign

end EquationEngine
