import EquationEngine.Expr.Basic

/-!
The text of a tree.

Binary operations stand in parentheses with a blank on each side of the operator; negation is a
bare minus sign, absolute value a pair of bars, and the exponential a power of `e`. A polynomial
is written as its body.
-/

namespace EquationEngine.Expr

variable {α : Type} [Arithmetic α]

mutual

/-- The text of a tree. -/
def render : Expr α → String
  | const v => Arithmetic.text v
  | var x => x
  | unary .neg e => "-" ++ render e
  | unary .abs e => "|" ++ render e ++ "|"
  | unary .log e => "log(" ++ render e ++ ")"
  | unary .exp e => "e^(" ++ render e ++ ")"
  | binary op a b => "(" ++ render a ++ " " ++ op.word ++ " " ++ render b ++ ")"
  | nary op es => "(" ++ renderAll (" " ++ op.word ++ " ") es ++ ")"
  | equation r a b => render a ++ " " ++ r.symbol ++ " " ++ render b
  | polynomial _ e => render e
termination_by structural e => e

/-- The texts of several trees with a separator between neighbours. -/
def renderAll (separator : String) : List (Expr α) → String
  | [] => ""
  | [e] => render e
  | e :: es => render e ++ separator ++ renderAll separator es
termination_by structural es => es

end

/-- The text of a tree behind the name of its root's kind. -/
def describe (e : Expr α) : String := e.kind.nodeName ++ "(" ++ e.render ++ ")"

end EquationEngine.Expr
