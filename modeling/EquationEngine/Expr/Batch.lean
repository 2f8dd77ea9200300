import EquationEngine.Expr.Eval

/-!
Evaluation at a list of values of one variable at once.

Every operator is applied to whole lists. Its domain is tested over the whole list before anything
is computed, and a result outside the number type's range is its limiting value and no error.
-/

namespace EquationEngine

open Arithmetic

variable {α : Type} [Arithmetic α]

/-- The values of an operator at a list of numbers. -/
def UnaryOp.applyAll : UnaryOp → List α → Except Error (List α)
  | .neg, xs => .ok (xs.map (- ·))
  | .abs, xs => .ok (xs.map Arithmetic.abs)
  | .log, xs =>
    if xs.any fun x => le x zero then .error .logOfNonPositive else .ok (xs.map Arithmetic.log)
  | .exp, xs => .ok (xs.map Arithmetic.exp)

/-- Whether a power has no real value: a negative base with a fractional exponent, or zero with a
negative one. -/
def lacksRealPower (x y : α) : Bool :=
  (lt x zero && isFractional y) || (isZero x && lt y zero)

/-- The values of an operator at the pairs of two lists. -/
def BinaryOp.applyAll : BinaryOp → List α → List α → Except Error (List α)
  | .add, xs, ys => .ok (xs.zipWith (· + ·) ys)
  | .sub, xs, ys => .ok (xs.zipWith (· - ·) ys)
  | .mul, xs, ys => .ok (xs.zipWith (· * ·) ys)
  | .div, xs, ys => if ys.any isZero then .error .divisionByZero else .ok (xs.zipWith (· / ·) ys)
  | .pow, xs, ys =>
    if (xs.zip ys).any fun (x, y) => lacksRealPower x y then .error .noRealPowers
    else .ok (xs.zipWith Arithmetic.pow ys)
  | .mod, xs, ys => if ys.any isZero then .error .modulusByZero else .ok (xs.zipWith rem ys)

/-- The answers of an evaluation at a list of values. -/
inductive Values (α : Type) where
  | numbers (xs : List α)
  | truths (bs : List Bool)
  deriving DecidableEq, Repr

namespace Expr

mutual

/-- The numbers a tree denotes as one variable runs through a list of values. -/
def evalBatch (name : String) (xs : List α) : Expr α → Except Error (List α)
  | const v => .ok (xs.map fun _ => v)
  | var y => if y = name then .ok xs else .error (.unbound y)
  | unary op e => do op.applyAll (← evalBatch name xs e)
  | binary op a b => do
    let us ← evalBatch name xs a
    let vs ← evalBatch name xs b
    op.applyAll us vs
  | nary op es => evalBatchAll name xs op.binary (xs.map fun _ => op.unit) es
  | equation r a b => do
    let us ← evalBatch name xs a
    let vs ← evalBatch name xs b
    return us.zipWith (fun u v => if r.holds u v then one else zero) vs
  | polynomial _ e => evalBatch name xs e
termination_by structural e => e

/-- The operands joined one after another to the list computed so far. -/
def evalBatchAll (name : String) (xs : List α) (op : BinaryOp) (soFar : List α) :
    List (Expr α) → Except Error (List α)
  | [] => .ok soFar
  | e :: es => do
    let us ← evalBatch name xs e
    let vs ← op.applyAll soFar us
    evalBatchAll name xs op vs es
termination_by structural es => es

end

/-- The answers of a tree as one variable runs through a list of values. -/
def evaluateBatch (name : String) (xs : List α) : Expr α → Except Error (Values α)
  | equation r a b => do
    let us ← evalBatch name xs a
    let vs ← evalBatch name xs b
    return .truths (us.zipWith r.holds vs)
  | polynomial _ e => evaluateBatch name xs e
  | e => return .numbers (← evalBatch name xs e)

end Expr

end EquationEngine
