import EquationEngine.Arithmetic
import EquationEngine.Error

/-!
The six relations an equation can state.
-/

namespace EquationEngine

/-- The relation between the two sides of an equation. -/
inductive Relation where
  | eq
  | ne
  | gt
  | lt
  | ge
  | le
  deriving DecidableEq, Repr

namespace Relation

/-- The one-character sign of a relation. -/
def symbol : Relation → String
  | eq => "="
  | ne => "≠"
  | gt => ">"
  | lt => "<"
  | ge => "≥"
  | le => "≤"

/-- The relation written by a sign; three relations also have a two-character spelling. -/
def ofSymbol? : String → Option Relation
  | "=" => some eq
  | "≠" | "!=" => some ne
  | ">" => some gt
  | "<" => some lt
  | "≥" | ">=" => some ge
  | "≤" | "<=" => some le
  | _ => none

/-- The relation written by a sign, or the complaint that there is none. -/
def read (word : String) : Except Error Relation :=
  match ofSymbol? word with
  | some r => .ok r
  | none => .error (.unknownRelation word)

/-- Whether a relation holds between two numbers. -/
def holds {α : Type} [Arithmetic α] : Relation → α → α → Bool
  | eq, x, y => x == y
  | ne, x, y => !(x == y)
  | gt, x, y => Arithmetic.lt y x
  | lt, x, y => Arithmetic.lt x y
  | ge, x, y => Arithmetic.le y x
  | le, x, y => Arithmetic.le x y

@[simp] theorem ofSymbol?_symbol (r : Relation) : ofSymbol? r.symbol = some r := by
  cases r <;> rfl

end Relation

end EquationEngine
