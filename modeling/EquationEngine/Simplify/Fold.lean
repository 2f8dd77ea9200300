import EquationEngine.Expr.Basic

/-!
Constant folding: operations on constants are carried out.

A quotient or remainder by zero and a power without value are left as they stand. Logarithms and
exponentials are never carried out.
-/

namespace EquationEngine.Expr

open Arithmetic

variable {α : Type} [Arithmetic α]

/-- An operator over a folded operand; negation and absolute value of a constant are carried out.
-/
def foldUnary : UnaryOp → Expr α → Expr α
  | .neg, e =>
    match constValue? e with
    | some v => number (-v)
    | none => apply .neg e
  | .abs, e =>
    match constValue? e with
    | some v => number (Arithmetic.abs v)
    | none => apply .abs e
  | op, e => apply op e

/-- Whether an operation that ended in an error is kept in the tree instead of being reported. -/
def keepsPower : Error → Bool
  | .noRealPower .. | .outOfRange => true
  | _ => false

/-- An operation on two constants, carried out where it has a value. -/
def foldBinary (op : BinaryOp) (a b : Expr α) : Except Error (Expr α) :=
  match constValue? a, constValue? b with
  | some x, some y =>
    if (op == .div || op == .mod) && isZero y then .ok (binary op a b)
    else
      match op.apply x y with
      | .ok v => .ok (number v)
      | .error e => if keepsPower e then .ok (binary op a b) else .error e
  | _, _ => .ok (binary op a b)

/-- The tree with every operation on constants carried out and its polynomial marks removed. -/
def foldConstants : Expr α → Except Error (Expr α)
  | polynomial _ e => foldConstants e
  | unary op e => do return foldUnary op (← foldConstants e)
  | binary op a b => do
    let a' ← foldConstants a
    let b' ← foldConstants b
    foldBinary op a' b'
  | e => .ok e

end EquationEngine.Expr
