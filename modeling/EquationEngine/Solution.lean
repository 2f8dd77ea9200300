import EquationEngine.Expr.Printer

/-!
What solving an equation yields: values for the variable, or the finding that every value or no
value can be named.
-/

namespace EquationEngine

inductive SolutionKind where
  | single
  | multiple
  | tautology
  | notFound
  deriving DecidableEq, Repr

namespace SolutionKind

def label : SolutionKind → String
  | single => "single"
  | multiple => "multiple"
  | tautology => "tautology"
  | notFound => "not_found"

def ofLabel? : String → Option SolutionKind
  | "single" => some single
  | "multiple" => some multiple
  | "tautology" => some tautology
  | "not_found" => some notFound
  | _ => none

/-- The finding of a kind that comes without values. -/
def message? : SolutionKind → Option String
  | tautology => some "Any value satisfies the equation"
  | notFound => some "Variable not found in equation"
  | _ => none

def isSolved : SolutionKind → Bool
  | single | multiple => true
  | _ => false

end SolutionKind

/-- The result of solving an equation. -/
structure Solution (α : Type) where
  kind : SolutionKind
  values : List (Expr α)
  deriving Repr

/-- A result as a caller takes it out: one value, a list of values, or a finding. -/
inductive Answer (α : Type) where
  | value (e : Expr α)
  | values (es : List (Expr α))
  | finding (message : String)

namespace Solution

variable {α : Type}

def single (e : Expr α) : Solution α := ⟨.single, [e]⟩

def tautology : Solution α := ⟨.tautology, []⟩

def notFound : Solution α := ⟨.notFound, []⟩

/-- The values of several results as one result; without any value, the first of the results. -/
def merge (results : List (Solution α)) : Solution α :=
  match results.flatMap values with
  | [] => results.head?.getD notFound
  | [e] => single e
  | es => ⟨.multiple, es⟩

def message? (s : Solution α) : Option String := s.kind.message?

def isSolved (s : Solution α) : Bool := s.kind.isSolved

/-- The text of a result. -/
def render [Arithmetic α] (s : Solution α) : String :=
  match s.kind with
  | .single => s.values.head?.elim "" Expr.render
  | .multiple => "[" ++ ", ".intercalate (s.values.map Expr.render) ++ "]"
  | k => k.message?.getD ""

/-- The result as a caller takes it out. -/
def answer (s : Solution α) : Answer α :=
  match s.kind, s.values with
  | .single, e :: _ => .value e
  | k, es =>
    match k.message? with
    | some m => .finding m
    | none => .values es

end Solution

end EquationEngine
