import EquationEngine.Expr.Basic

/-!
The value of a tree under an assignment of numbers to variables.

`eval` gives every tree a number; an equation counts as one where it holds and as zero where it
does not. `evaluate` is what a caller asks for: an equation at the root, or marked as a polynomial
there, answers with its truth.
-/

namespace EquationEngine

/-- The answer of an evaluation. -/
inductive Value (α : Type) where
  | number (x : α)
  | truth (b : Bool)
  deriving DecidableEq, Repr

/-- An assignment of numbers to some of the variables. -/
abbrev Assignment (α : Type) := String → Option α

namespace Assignment

/-- The assignment of one variable. -/
def single {α : Type} (name : String) (x : α) : Assignment α :=
  fun y => if y = name then some x else none

end Assignment

namespace Expr

open Arithmetic

variable {α : Type} [Arithmetic α]

mutual

/-- The number a tree denotes; operands are taken from left to right, and the first error wins. -/
def eval (env : Assignment α) : Expr α → Except Error α
  | const v => .ok v
  | var x =>
    match env x with
    | some v => .ok v
    | none => .error (.unbound x)
  | unary op e => do op.apply (← eval env e)
  | binary op a b => do
    let x ← eval env a
    let y ← eval env b
    op.apply x y
  | nary op es => evalAll env op.binary op.unit es
  | equation r a b => do
    let x ← eval env a
    let y ← eval env b
    return if r.holds x y then one else zero
  | polynomial _ e => eval env e
termination_by structural e => e

/-- The operands joined one after another to what has been computed so far. -/
def evalAll (env : Assignment α) (op : BinaryOp) (soFar : α) : List (Expr α) → Except Error α
  | [] => .ok soFar
  | e :: es => do
    let x ← eval env e
    let y ← op.apply soFar x
    evalAll env op y es
termination_by structural es => es

end

/-- The answer of a tree: the truth of an equation, the number of everything else. -/
def evaluate (env : Assignment α) : Expr α → Except Error (Value α)
  | equation r a b => do
    let x ← eval env a
    let y ← eval env b
    return .truth (r.holds x y)
  | polynomial _ e => evaluate env e
  | e => return .number (← eval env e)

end Expr

end EquationEngine
