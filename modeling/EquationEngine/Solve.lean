import EquationEngine.Expr.Traversal
import EquationEngine.Simplify.Loop
import EquationEngine.Solution

/-!
Solving an equality for one variable.

Both sides are simplified. If the variable stands on both, their difference is set to zero.
Otherwise the outermost operator is moved to the other side by its inverse, until the variable
stands alone. An even power has two roots, and the equation splits into two.
-/

namespace EquationEngine

variable {α : Type} [Arithmetic α]

/-- The search for one variable. -/
structure Solver where
  /-- The variable to isolate. -/
  name : String
  /-- The number of steps after which the search is given up. -/
  maxDepth : Int
  deriving DecidableEq, Repr

namespace Solver

/-- Whether an exponent is a constant even integer. -/
def isEvenInteger : Expr α → Bool
  | .const n => Arithmetic.isInteger n && Arithmetic.isEven n
  | _ => false

/-- An operator over one operand moved to the other side by its inverse. -/
def invertUnary (op : UnaryOp) (other : Expr α) : Expr α :=
  match op with
  | .neg => .negate other
  | .abs => .apply .abs other
  | .log => .apply .exp other
  | .exp => .apply .log other

/-- The root of the other side that undoes a power. -/
def rootOf (other exponent : Expr α) : Expr α :=
  .binary .pow other (.binary .div (.integer 1) exponent)

/-- The equation left after the variable's side loses an operator over two operands of which the
left holds the variable; a power is undone by its principal root. -/
def invertLeft (op : BinaryOp) (a b other : Expr α) : Except Error (Expr α × Expr α) :=
  match op with
  | .add => .ok (a, .binary .sub other b)
  | .sub => .ok (a, .binary .add other b)
  | .mul => .ok (a, .binary .div other b)
  | .div => .ok (a, .binary .mul other b)
  | .pow => .ok (a, rootOf other b)
  | .mod => .error .modulusNotInvertible

/-- The equation left after the variable's side loses an operator over two operands of which the
right holds the variable. -/
def invertRight (op : BinaryOp) (a b other : Expr α) : Except Error (Expr α × Expr α) :=
  match op with
  | .add => .ok (b, .binary .sub other a)
  | .sub => .ok (b, .binary .sub a other)
  | .mul => .ok (b, .binary .div other a)
  | .div => .ok (b, .binary .div a other)
  | .pow => .ok (b, .binary .div (.apply .log other) (.apply .log a))
  | .mod => .error .modulusNotInvertible

/-- The continuation of a search: both sides of an equation, one level deeper. -/
abbrev Search (α : Type) := Expr α → Expr α → Run (Solution α)

/-- One operator moved, reported, and the smaller equation solved. -/
def follow (deeper : Search α) (main other newMain newOther : Expr α) : Run (Solution α) := do
  Run.emit (.inverted main.render other.render newMain.render newOther.render)
  deeper newMain newOther

/-- A power of the variable's side undone: by both roots if its exponent is an even integer. -/
def invertPower (deeper : Search α) (limit : Int) (base exponent other : Expr α) :
    Run (Solution α) := do
  let main := Expr.binary .pow base exponent
  let root ← (rootOf other exponent).simplifyConfigured limit
  if isEvenInteger exponent then
    let negated ← (Expr.binary .mul (.integer (-1)) root).simplifyConfigured limit
    Run.emit (.evenRoot main.render other.render base.render root.render)
    let first ← deeper base root
    let second ← deeper base negated
    return .merge [first, second]
  else follow deeper main other base root

/-- The step for a simplified side that holds the variable, with the other side free of it. -/
def isolate (s : Solver) (deeper : Search α) (limit : Int) (main other : Expr α) :
    Run (Solution α) :=
  match main with
  | .var _ => return .single other
  | .unary op e => follow deeper main other e (invertUnary op other)
  | .binary op a b =>
    match a.mentions s.name, b.mentions s.name with
    | true, true => Run.fail (.bothOperands s.name main.render)
    | true, false =>
      if op = .pow then invertPower deeper limit a b other
      else do
        let (newMain, newOther) ← Run.lift (invertLeft op a b other)
        follow deeper main other newMain newOther
    | false, _ => do
      let (newMain, newOther) ← Run.lift (invertRight op a b other)
      follow deeper main other newMain newOther
  | e => Run.fail (.notIsolable s.name e.kind.nodeName)

/-- The search with a number of levels left. -/
def search (s : Solver) (limit : Int) : (levels : Nat) → Search α
  | 0, _, _ => Run.fail (.depthExceeded s.name s.maxDepth)
  | n + 1, left, right => do
    let a ← left.simplifyConfigured limit
    let b ← right.simplifyConfigured limit
    match a.mentions s.name, b.mentions s.name with
    | false, false => return if a == b then .tautology else .notFound
    | true, true =>
      Run.emit (.bothSides a.render b.render)
      search s limit n (.binary .sub a b) (.integer 0)
    | true, false => isolate s (search s limit n) limit a b
    | false, true => isolate s (search s limit n) limit b a

/-- The result of solving an equation with the given sides. -/
def solve (s : Solver) (limit : Int) (r : Relation) (left right : Expr α) : Run (Solution α) :=
  if r = .eq then do
    let result ← search s limit (s.maxDepth + 1).toNat left right
    Run.emit (.solved (Expr.equation r left right).render s.name result.render)
    return result
  else Run.fail (.unsolvableRelation r.symbol)

end Solver

/-- The result of solving a tree, which has to be an equation, for a variable. -/
def Expr.solveFor (limit maxDepth : Int) (name : String) : Expr α → Run (Solution α)
  | .equation r a b => Solver.solve ⟨name, maxDepth⟩ limit r a b
  | _ => Run.fail .needsEquation

end EquationEngine
