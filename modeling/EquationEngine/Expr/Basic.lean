import EquationEngine.Operator
import EquationEngine.Relation

/-!
Expression trees.

A tree is built with `number`, `apply` and `negate` rather than with the bare constructors: they
keep the three rules every stored tree obeys. A constant is never a negative zero, a negation
never stands on a negation, and an absolute value never stands on a negation.
-/

namespace EquationEngine

/-- An expression, an equation between expressions, or an expression marked as a polynomial. -/
inductive Expr (α : Type) where
  | const (value : α)
  | var (name : String)
  | unary (op : UnaryOp) (operand : Expr α)
  | binary (op : BinaryOp) (left right : Expr α)
  /-- A flat sum or product over an ordered list of operands. -/
  | nary (op : NaryOp) (operands : List (Expr α))
  | equation (relation : Relation) (left right : Expr α)
  /-- A body marked as a polynomial in the named variable. -/
  | polynomial (name : String) (body : Expr α)
  deriving Inhabited, Repr

/-- The shapes of nodes, without their contents. -/
inductive Kind where
  | constant
  | variableName
  | unary
  | binary
  | nary
  | equation
  | polynomial
  deriving DecidableEq, Repr

namespace Kind

/-- The place of a kind in the fixed order of kinds. -/
def index : Kind → Nat
  | constant => 0
  | variableName => 1
  | unary => 2
  | binary => 3
  | nary => 4
  | equation => 5
  | polynomial => 6

/-- The label of a kind. -/
def label : Kind → String
  | constant => "CONSTANT"
  | variableName => "VARIABLE"
  | unary => "UNARY_OP"
  | binary => "BINARY_OP"
  | nary => "NARY_OP"
  | equation => "EQUATION"
  | polynomial => "POLYNOMIAL"

/-- What a node of a kind is called in messages. -/
def nodeName : Kind → String
  | constant => "ConstantNode"
  | variableName => "VariableNode"
  | unary => "UnaryOpNode"
  | binary => "BinaryOpNode"
  | nary => "NaryOpNode"
  | equation => "Equation"
  | polynomial => "Polynomial"

end Kind

namespace Expr

variable {α : Type}

def kind : Expr α → Kind
  | const _ => .constant
  | var _ => .variableName
  | unary .. => .unary
  | binary .. => .binary
  | nary .. => .nary
  | equation .. => .equation
  | polynomial .. => .polynomial

def isConst : Expr α → Bool
  | const _ => true
  | _ => false

def isBinary : Expr α → Bool
  | binary .. => true
  | _ => false

/-- The constant a number is stored as. -/
def number [Arithmetic α] (x : α) : Expr α := const (Arithmetic.settle x)

/-- The constant of an integer. -/
def integer [Arithmetic α] (n : Int) : Expr α := number (Arithmetic.ofInt n)

/-- An operator over an operand: two negations cancel, and an absolute value swallows a negation.
-/
def apply : UnaryOp → Expr α → Expr α
  | .neg, unary .neg e => e
  | .abs, unary .neg e => apply .abs e
  | op, e => unary op e

def negate (e : Expr α) : Expr α := apply .neg e

/-- The operands joined from left to right. -/
def chain (op : BinaryOp) (first : Expr α) (rest : List (Expr α)) : Expr α :=
  rest.foldl (binary op) first

/-- A flat sum or product as nested binary operations. -/
def unflatten [Arithmetic α] (op : NaryOp) : List (Expr α) → Expr α
  | [] => number op.unit
  | e :: es => chain op.binary e es

/-- The value of a constant under any number of negations and absolute values. -/
def constValue? [Arithmetic α] : Expr α → Option α
  | const v => some v
  | unary .neg e => (constValue? e).map (- ·)
  | unary .abs e => (constValue? e).map Arithmetic.abs
  | _ => none

mutual

/-- Structural equality, with constants compared as numbers. -/
def beq [BEq α] : Expr α → Expr α → Bool
  | const x, const y => x == y
  | var x, var y => x == y
  | unary f a, unary g b => f == g && beq a b
  | binary f a b, binary g c d => f == g && beq a c && beq b d
  | nary f as, nary g bs => f == g && beqAll as bs
  | equation r a b, equation s c d => r == s && beq a c && beq b d
  | polynomial x a, polynomial y b => x == y && beq a b
  | _, _ => false
termination_by structural e => e

/-- Equality of lists of trees, member by member. -/
def beqAll [BEq α] : List (Expr α) → List (Expr α) → Bool
  | [], [] => true
  | a :: as, b :: bs => beq a b && beqAll as bs
  | _, _ => false
termination_by structural es => es

end

instance [BEq α] : BEq (Expr α) := ⟨beq⟩

/-- The subtrees directly below the root, from left to right. -/
def children : Expr α → List (Expr α)
  | const _ | var _ => []
  | unary _ e => [e]
  | binary _ a b => [a, b]
  | nary _ es => es
  | equation _ a b => [a, b]
  | polynomial _ e => [e]

mutual

/-- The number of nodes. -/
def size : Expr α → Nat
  | const _ | var _ => 1
  | unary _ e => size e + 1
  | binary _ a b => size a + size b + 1
  | nary _ es => sizeAll es + 1
  | equation _ a b => size a + size b + 1
  | polynomial _ e => size e + 1
termination_by structural e => e

/-- The number of nodes of all trees of a list. -/
def sizeAll : List (Expr α) → Nat
  | [] => 0
  | e :: es => size e + sizeAll es
termination_by structural es => es

end

mutual

/-- The number of nodes on a longest path from the root to a leaf. -/
def depth : Expr α → Nat
  | const _ | var _ => 1
  | unary _ e => depth e + 1
  | binary _ a b => max (depth a) (depth b) + 1
  | nary _ es => depthAll es + 1
  | equation _ a b => max (depth a) (depth b) + 1
  | polynomial _ e => depth e + 1
termination_by structural e => e

/-- The greatest depth of the trees of a list. -/
def depthAll : List (Expr α) → Nat
  | [] => 0
  | e :: es => max (depth e) (depthAll es)
termination_by structural es => es

end

@[simp] theorem sizeAll_append (as bs : List (Expr α)) :
    sizeAll (as ++ bs) = sizeAll as + sizeAll bs := by
  induction as with
  | nil => simp [sizeAll]
  | cons a as ih => simp [sizeAll, ih, Nat.add_assoc]

theorem size_eq_children (e : Expr α) : size e = sizeAll e.children + 1 := by
  cases e <;> simp [size, sizeAll, children]

end Expr

end EquationEngine
