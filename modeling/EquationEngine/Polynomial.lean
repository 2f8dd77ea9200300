import EquationEngine.Simplify.Loop

/-!
Polynomials in one variable.

A tree has polynomial shape if its leaves are finite constants and one variable, which occurs, and
its operators are sum, difference, product and remainder, or a power of the bare variable with a
constant integer exponent that is not negative.
-/

namespace EquationEngine.Expr

open Arithmetic

variable {α : Type} [Arithmetic α]

/-- One more variable beside the one seen so far, if any; two different names do not go together.
-/
def joinName : Option String → String → Option (Option String)
  | none, x => some (some x)
  | some y, x => if x = y then some (some y) else none

/-- The variable seen so far after a walk through a tree, or `none` where the shape is broken. -/
def shapeFrom (seen : Option String) : Expr α → Option (Option String)
  | const v => if isFinite v then some seen else none
  | var x => joinName seen x
  | binary .pow (var x) (const n) =>
    if isInteger n && !lt n zero then joinName seen x else none
  | binary .pow _ _ | binary .div _ _ => none
  | binary _ a b => do shapeFrom (← shapeFrom seen a) b
  | _ => none

/-- The variable of a tree of polynomial shape. -/
def polynomialVariable? (e : Expr α) : Option String := (shapeFrom none e).join

def isPolynomial (e : Expr α) : Bool := (polynomialVariable? e).isSome

/-- A tree marked as a polynomial in a variable; its body is simplified. -/
def mark (limit : Int) (name : String) (e : Expr α) : Run (Expr α) := do
  return polynomial name (← simplifyConfigured limit e)

/-- The tree, marked as a polynomial if it has the shape of one. -/
def tag (limit : Int) (e : Expr α) : Run (Expr α) :=
  match polynomialVariable? e with
  | some x => mark limit x e
  | none => return e

end EquationEngine.Expr
