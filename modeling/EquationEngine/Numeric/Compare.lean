import EquationEngine.Double.Arithmetic
import EquationEngine.Expr.Eval
import EquationEngine.Expr.Traversal
import EquationEngine.Numeric.Complex

/-!
Questions about functions answered by computing with them.

Two expressions are taken for the same function if they agree, up to a small tolerance, wherever
both have a value among a few sample points. A value is taken for a solution if both sides of the
equation agree there in the complex numbers.
-/

namespace EquationEngine.Numeric

/-- The tolerance of all comparisons. -/
def tolerance : Float := 1e-9

/-- The points at which functions of one variable are compared. -/
def samples : List Float := [-3.7, -1.3, -0.4, 0.6, 1.9, 4.2]

/-- Positive values for functions of several variables, spread so that at each point all variables
differ and their order changes from point to point. -/
def spread (point place : Nat) : Float :=
  0.31 + 0.107 * ((17 * point + 29 * place + 7 * point * place + 5) % 37).toFloat

/-- The points at which functions of the named variables are compared. -/
def points : List String → List (Assignment Float)
  | [] => samples.map (Assignment.single "x")
  | [x] => samples.map (Assignment.single x)
  | names => (List.range 6).map fun i x => (names.idxOf? x).map (spread i)

/-- Whether two numbers are equal up to the tolerance. -/
def isClose (x y : Float) : Bool :=
  if x.isFinite && y.isFinite then (x - y).abs ≤ tolerance + tolerance * y.abs else x == y

/-- Whether two trees agree at a point; `none` where one of them has no value. -/
def agreeAt? (a b : Expr Float) (env : Assignment Float) : Option Bool :=
  match a.eval env, b.eval env with
  | .ok x, .ok y => some (isClose x y)
  | _, _ => none

/-- Whether two trees are taken for the same function. -/
def equivalent (a b : Expr Float) : Bool :=
  let names := b.names.foldl (fun names x => Expr.insertName x names) a.names
  let compared := (points names).filterMap (agreeAt? a b)
  !compared.isEmpty && compared.all id

/-- Whether both sides of an equation agree at a value of a variable. -/
def balances (a b : Expr Float) (name : String) (value : ComplexDouble) : Bool :=
  let env (x : String) : Option ComplexDouble := if x = name then some value else none
  match a.evalComplex? env, b.evalComplex? env with
  | some x, some y => (x.sub y).modulus ≤ tolerance * max 1 (max x.modulus y.modulus)
  | _, _ => false

/-- Whether a value, itself an expression without variables, solves an equation. -/
def isSolution (name : String) (value : Expr Float) : Expr Float → Bool
  | .equation _ a b =>
    match value.evalComplex? fun _ => none with
    | some v => balances a b name v
    | none => false
  | _ => false

/-- Whether a node can be written with real functions: a remainder needs constant operands, and a
constant needs a real value. -/
def isConvertibleNode (e : Expr Float) : Bool :=
  if e.names.isEmpty then
    match e.eval fun _ => none with
    | .ok _ => true
    | .error _ => false
  else
    match e with
    | .binary .mod _ _ => false
    | _ => true

/-- Whether every node of a tree can be written with real functions. -/
def isConvertible (e : Expr Float) : Bool := e.depthFirst.all isConvertibleNode

/-- A number in millionths, rounded to the nearest integer. -/
def millionths (x : Float) : Int := (Double.toInt? (x * 1e6 + 0.5).floor).getD 0

end EquationEngine.Numeric
