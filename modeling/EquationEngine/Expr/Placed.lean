import EquationEngine.Expr.Basic

/-!
Constants that remember where they stood.

A constant need not equal itself: an infinity less an infinity equals nothing. Such a constant is
known again only as the one that stood at a certain place and was handed on untouched. To see which
constants a pass hands on, those of its tree are marked with their places. The marks play no part in
arithmetic. No operation on numbers keeps them, and neither does storing a number anew.
-/

namespace EquationEngine

/-- A number, with the place of the constant it was if it has been handed on from a tree. -/
structure Placed (α : Type) where
  value : α
  /-- The steps from the constant up to the root, each as the index of a child. -/
  place : Option (List Nat)

namespace Placed

variable {α : Type}

/-- A number that stands nowhere yet. -/
def fresh (x : α) : Placed α := ⟨x, none⟩

/-- Whether two constants are equal as numbers, or one and the same constant of a tree. -/
def same [BEq α] (x y : Placed α) : Bool :=
  x.value == y.value || (x.place.isSome && x.place == y.place)

instance [Arithmetic α] : Arithmetic (Placed α) where
  add x y := fresh (x.value + y.value)
  sub x y := fresh (x.value - y.value)
  mul x y := fresh (x.value * y.value)
  div x y := fresh (x.value / y.value)
  neg x := fresh (-x.value)
  beq x y := x.value == y.value
  ofInt n := fresh (Arithmetic.ofInt n)
  ofDecimal digits places := fresh (Arithmetic.ofDecimal digits places)
  abs x := fresh (Arithmetic.abs x.value)
  lt x y := Arithmetic.lt x.value y.value
  le x y := Arithmetic.le x.value y.value
  isFinite x := Arithmetic.isFinite x.value
  isInteger x := Arithmetic.isInteger x.value
  isEven x := Arithmetic.isEven x.value
  pow x y := fresh (Arithmetic.pow x.value y.value)
  rem x y := fresh (Arithmetic.rem x.value y.value)
  log x := fresh (Arithmetic.log x.value)
  exp x := fresh (Arithmetic.exp x.value)
  powFault x y := Arithmetic.powFault x.value y.value
  remFault x y := Arithmetic.remFault x.value y.value
  logFault x := Arithmetic.logFault x.value
  expFault x := Arithmetic.expFault x.value
  text x := Arithmetic.text x.value
  fullText x := Arithmetic.fullText x.value

end Placed

namespace Expr

variable {α : Type}

mutual

/-- The tree with its constants marked, if its root stands at the given place. -/
def placedAt (place : List Nat) : Expr α → Expr (Placed α)
  | const v => const ⟨v, some place⟩
  | var x => var x
  | unary op e => unary op (placedAt (0 :: place) e)
  | binary op a b => binary op (placedAt (0 :: place) a) (placedAt (1 :: place) b)
  | nary op es => nary op (placedAllAt place 0 es)
  | equation r a b => equation r (placedAt (0 :: place) a) (placedAt (1 :: place) b)
  | polynomial x e => polynomial x (placedAt (0 :: place) e)
termination_by structural e => e

/-- The operands of a node at the given place, marked from the given index on. -/
def placedAllAt (place : List Nat) (index : Nat) : List (Expr α) → List (Expr (Placed α))
  | [] => []
  | e :: es => placedAt (index :: place) e :: placedAllAt place (index + 1) es
termination_by structural es => es

end

/-- The tree with every constant marked by its place. -/
def placed (e : Expr α) : Expr (Placed α) := placedAt [] e

/-- Whether two marked trees are equal in all but the constants that do not equal themselves, and
have the same ones of these. -/
def same [BEq α] (s t : Expr (Placed α)) : Bool := @beq _ ⟨Placed.same⟩ s t

end Expr

end EquationEngine
