import EquationEngine.Expr.Basic

/-!
Identity elimination: neutral and absorbing operands disappear, and an operator over one variable
twice is carried out.

The rules are tried from the leaves upwards. A division or remainder by the constant zero that they
meet is an error.
-/

namespace EquationEngine.Expr

open Arithmetic

variable {α : Type} [Arithmetic α]

/-- Whether a tree is a constant equal to the given integer. -/
def isInt (n : Int) (e : Expr α) : Bool :=
  match constValue? e with
  | some v => v == ofInt n
  | none => false

/-- A bare variable with the sign in front of it. -/
def signedVariable? : Expr α → Option (String × Sign)
  | var x => some (x, .plus)
  | unary .neg (var x) => some (x, .minus)
  | _ => none

/-- The variable and the two signs of operands that are both the same bare variable. -/
def sameVariable? (a b : Expr α) : Option (String × Sign × Sign) :=
  match signedVariable? a, signedVariable? b with
  | some (x, s), some (y, t) => if x = y then some (x, s, t) else none
  | _, _ => none

/-- An integer multiple of a variable. -/
def multiple (n : Int) (name : String) : Expr α :=
  if n = 0 then integer 0
  else if n = 1 then var name
  else if n = -1 then negate (var name)
  else binary .mul (integer n) (var name)

def dropInSum (a b : Expr α) : Expr α :=
  if isInt 0 a then b
  else if isInt 0 b then a
  else
    match sameVariable? a b with
    | some (x, s, t) => multiple (s.toInt + t.toInt) x
    | none => binary .add a b

def dropInDifference (a b : Expr α) : Expr α :=
  if isInt 0 a then negate b
  else if isInt 0 b then a
  else
    match sameVariable? a b with
    | some (x, s, t) => multiple (s.toInt - t.toInt) x
    | none => binary .sub a b

def dropInProduct (a b : Expr α) : Expr α :=
  if isInt 0 a || isInt 0 b then integer 0
  else if isInt 1 b then a
  else if isInt 1 a then b
  else if isInt (-1) b then negate a
  else if isInt (-1) a then negate b
  else
    match sameVariable? a b with
    | some (x, s, t) =>
      let square := binary .pow (var x) (integer 2)
      if s = t then square else negate square
    | none => binary .mul a b

def dropInQuotient (a b : Expr α) : Except Error (Expr α) :=
  if isInt 0 b then .error .divisionByZero
  else if isInt 0 a then .ok (integer 0)
  else if isInt 1 b then .ok a
  else if isInt (-1) b then .ok (negate a)
  else
    match sameVariable? a b, signedVariable? a, constValue? b with
    | some (_, s, t), _, _ => .ok (integer (s.toInt * t.toInt))
    | none, some (x, s), some _ =>
      .ok (binary .mul (binary .div (integer s.toInt) b) (var x))
    | _, _, _ => .ok (binary .div a b)

def dropInPower (a b : Expr α) : Expr α :=
  if isInt 0 b then integer 1
  else if isInt 1 b then a
  else if isInt 0 a then integer 0
  else if isInt 1 a then integer 1
  else binary .pow a b

def dropInRemainder (a b : Expr α) : Except Error (Expr α) :=
  if isInt 0 b then .error .modulusByZero
  else if isInt 1 b || isInt 0 a || (sameVariable? a b).isSome then .ok (integer 0)
  else .ok (binary .mod a b)

/-- The identity rule of an operator over two operands. -/
def dropAtRoot : BinaryOp → Expr α → Expr α → Except Error (Expr α)
  | .add, a, b => .ok (dropInSum a b)
  | .sub, a, b => .ok (dropInDifference a b)
  | .mul, a, b => .ok (dropInProduct a b)
  | .div, a, b => dropInQuotient a b
  | .pow, a, b => .ok (dropInPower a b)
  | .mod, a, b => dropInRemainder a b

/-- The tree after one round of identity elimination from the leaves upwards. -/
def dropIdentities : Expr α → Except Error (Expr α)
  | unary op e => do return apply op (← dropIdentities e)
  | binary op a b => do
    let a' ← dropIdentities a
    let b' ← dropIdentities b
    dropAtRoot op a' b'
  | e => .ok e

end EquationEngine.Expr
