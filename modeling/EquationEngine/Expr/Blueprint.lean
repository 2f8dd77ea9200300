import EquationEngine.Expr.Parser

/-!
Descriptions of trees, with operators and relations as words and with texts in place of parsed
parts.

Building follows a description from the leaves upwards and from left to right. A word is looked up
when the operands below it are built, and a polynomial is simplified as soon as its body is.
-/

namespace EquationEngine

/-- A tree that has still to be built. -/
inductive Blueprint (α : Type) where
  /-- A text to be read in whole, with its polynomials marked. -/
  | text (text : String)
  /-- A text of which the expression in front is read, without marks. -/
  | front (text : String)
  | const (value : α)
  | var (name : String)
  | unary (word : String) (operand : Blueprint α)
  | binary (word : String) (left right : Blueprint α)
  | nary (word : String) (operands : List (Blueprint α))
  | equation (word : String) (left right : Blueprint α)
  | polynomial (name : String) (body : Blueprint α)

namespace Blueprint

variable {α : Type} [Arithmetic α]

mutual

/-- The tree that a description stands for. -/
def build (limit : Int) : Blueprint α → Run (Expr α)
  | text t => Expr.parse limit t
  | front t => Run.lift (Expr.parseFront t)
  | const v => return .number v
  | var x => return .var x
  | unary word e => do
    let e' ← build limit e
    let op ← Run.lift (UnaryOp.read word)
    return .apply op e'
  | binary word a b => do
    let a' ← build limit a
    let b' ← build limit b
    let op ← Run.lift (BinaryOp.read word)
    return .binary op a' b'
  | nary word es => do
    let es' ← buildAll limit es
    let op ← Run.lift (NaryOp.read word)
    return .nary op es'
  | equation word a b => do
    let a' ← build limit a
    let b' ← build limit b
    let r ← Run.lift (Relation.read word)
    return .equation r a' b'
  | polynomial x e => do
    let e' ← build limit e
    Expr.mark limit x e'
termination_by structural e => e

/-- The trees of a list of descriptions. -/
def buildAll (limit : Int) : List (Blueprint α) → Run (List (Expr α))
  | [] => return []
  | e :: es => do
    let e' ← build limit e
    let es' ← buildAll limit es
    return e' :: es'
termination_by structural es => es

end

end Blueprint

end EquationEngine
