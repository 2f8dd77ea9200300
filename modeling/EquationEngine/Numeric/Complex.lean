import EquationEngine.Expr.Basic

/-!
Evaluation in the complex numbers, with principal branches, for checking a solution.
-/

namespace EquationEngine

/-- A complex number in double precision. -/
structure ComplexDouble where
  re : Float
  im : Float
  deriving Repr

namespace ComplexDouble

def ofReal (x : Float) : ComplexDouble := ⟨x, 0⟩

def add (a b : ComplexDouble) : ComplexDouble := ⟨a.re + b.re, a.im + b.im⟩

def sub (a b : ComplexDouble) : ComplexDouble := ⟨a.re - b.re, a.im - b.im⟩

def neg (a : ComplexDouble) : ComplexDouble := ⟨-a.re, -a.im⟩

def mul (a b : ComplexDouble) : ComplexDouble :=
  ⟨a.re * b.re - a.im * b.im, a.re * b.im + a.im * b.re⟩

def isZero (a : ComplexDouble) : Bool := a.re == 0 && a.im == 0

def isReal (a : ComplexDouble) : Bool := a.im == 0

/-- The absolute value. -/
def modulus (a : ComplexDouble) : Float :=
  if a.isReal then a.re.abs
  else if a.re == 0 then a.im.abs
  else
    let big := if a.re.abs < a.im.abs then a.im.abs else a.re.abs
    let x := a.re / big
    let y := a.im / big
    big * (x * x + y * y).sqrt

/-- The quotient by a number other than zero. -/
def div (a b : ComplexDouble) : ComplexDouble :=
  if b.isReal then ⟨a.re / b.re, a.im / b.re⟩
  else
    let d := b.re * b.re + b.im * b.im
    ⟨(a.re * b.re + a.im * b.im) / d, (a.im * b.re - a.re * b.im) / d⟩

def exp (a : ComplexDouble) : ComplexDouble :=
  let size := a.re.exp
  if a.isReal then ⟨size, 0⟩ else ⟨size * a.im.cos, size * a.im.sin⟩

/-- The principal logarithm of a number other than zero. -/
def log (a : ComplexDouble) : ComplexDouble :=
  if a.isReal && 0 < a.re then ⟨a.re.log, 0⟩ else ⟨a.modulus.log, Float.atan2 a.im a.re⟩

/-- The power by a natural number, by repeated squaring over the given number of binary digits. -/
def powNat (a : ComplexDouble) : (binaryDigits n : Nat) → ComplexDouble
  | 0, _ => ⟨1, 0⟩
  | k + 1, n =>
    let half := powNat a k (n / 2)
    let square := half.mul half
    if n % 2 = 0 then square else square.mul a

/-- The principal power; none for zero with an exponent whose real part is not positive, unless the
exponent is zero. -/
def pow? (a b : ComplexDouble) : Option ComplexDouble :=
  if b.isZero then some ⟨1, 0⟩
  else if a.isZero then if 0 < b.re then some ⟨0, 0⟩ else none
  else if a.isReal && b.isReal && 0 < a.re then some ⟨a.re.pow b.re, 0⟩
  else if b.isReal && b.re.floor == b.re && b.re.abs ≤ 1024 then
    let size := a.powNat 11 b.re.abs.toUInt64.toNat
    some (if b.re < 0 then div ⟨1, 0⟩ size else size)
  else some ((b.mul a.log).exp)

/-- The truncated remainder by a number other than zero. -/
def rem (a b : ComplexDouble) : ComplexDouble :=
  let q := a.div b
  if q.isZero then a
  else
    let size := q.modulus
    a.sub (b.mul (mul ⟨q.re / size, q.im / size⟩ ⟨size.floor, 0⟩))

end ComplexDouble

namespace BinaryOp

/-- The value of an operator at two complex numbers, where it has one. -/
def applyComplex? : BinaryOp → ComplexDouble → ComplexDouble → Option ComplexDouble
  | add, a, b => some (a.add b)
  | sub, a, b => some (a.sub b)
  | mul, a, b => some (a.mul b)
  | div, a, b => if b.isZero then none else some (a.div b)
  | pow, a, b => a.pow? b
  | mod, a, b => if b.isZero then none else some (a.rem b)

end BinaryOp

namespace UnaryOp

/-- The value of an operator at a complex number, where it has one. -/
def applyComplex? : UnaryOp → ComplexDouble → Option ComplexDouble
  | neg, a => some a.neg
  | abs, a => some ⟨a.modulus, 0⟩
  | log, a => if a.isZero then none else some a.log
  | exp, a => some a.exp

end UnaryOp

namespace Expr

mutual

/-- The complex number a tree denotes, where it denotes one. -/
def evalComplex? (env : String → Option ComplexDouble) : Expr Float → Option ComplexDouble
  | const v => some (.ofReal v)
  | var x => env x
  | unary op e => do op.applyComplex? (← evalComplex? env e)
  | binary op a b => do op.applyComplex? (← evalComplex? env a) (← evalComplex? env b)
  | nary op es => evalComplexAll? env op.binary (match op with
    | .sum => .ofReal 0
    | .product => .ofReal 1) es
  | equation _ _ _ => none
  | polynomial _ e => evalComplex? env e
termination_by structural e => e

/-- The operands joined one after another to what has been computed so far. -/
def evalComplexAll? (env : String → Option ComplexDouble) (op : BinaryOp)
    (soFar : ComplexDouble) : List (Expr Float) → Option ComplexDouble
  | [] => some soFar
  | e :: es => do
    let x ← evalComplex? env e
    let y ← op.applyComplex? soFar x
    evalComplexAll? env op y es
termination_by structural es => es

end

end Expr

end EquationEngine
