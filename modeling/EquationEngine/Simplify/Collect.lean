import EquationEngine.Expr.Printer

/-!
Collection of like terms.

A chain of sums and differences is flattened into signed terms. Each term is split into a
coefficient and a body, coefficients of like bodies are added, and the chain is written anew:
variables by name, powers of a variable by name and written exponent, the constant, and all other
bodies in the order in which they first appear.
-/

namespace EquationEngine.Expr

open Arithmetic

variable {α : Type} [Arithmetic α]

/-- The terms of a chain of sums and differences, each with the sign under which it stands. -/
def gather (s : Sign) : Expr α → List (Sign × Expr α)
  | binary .add a b => gather s a ++ gather s b
  | binary .sub a b => gather s a ++ gather s.flip b
  | e => [(s, e)]

/-- A term under a sign. -/
def signed : Sign → Expr α → Expr α
  | .plus, e => e
  | .minus, e => negate e

/-- The coefficient and the body of a term, starting from a coefficient found so far: negations,
constant factors and constant divisors other than zero are peeled off. -/
def splitFrom (coefficient : α) : Expr α → α × Expr α
  | unary .neg e => splitFrom (-coefficient) e
  | binary .mul a b =>
    match constValue? a, constValue? b with
    | some x, _ => splitFrom (coefficient * x) b
    | none, some y => splitFrom (coefficient * y) a
    | none, none => (coefficient, binary .mul a b)
  | binary .div a b =>
    match constValue? b with
    | some y =>
      if isZero y then (coefficient, binary .div a b) else splitFrom (coefficient / y) a
    | none => (coefficient, binary .div a b)
  | e => (coefficient, e)

/-- The coefficient and the body of a term. -/
def split (e : Expr α) : α × Expr α := splitFrom one e

/-- The sums of coefficients found so far. -/
structure Tally (α : Type) where
  /-- Coefficients of bare variables, in increasing order of names. -/
  linear : List (String × α)
  /-- Coefficients and exponents of powers, in increasing order of name and written exponent. -/
  powers : List ((String × String) × α × Expr α)
  constant : α
  /-- Coefficients of other bodies, in order of first appearance. -/
  others : List (Expr α × α)

namespace Tally

def empty : Tally α := ⟨[], [], zero, []⟩

/-- An amount added under a name, in an increasing list of names. -/
def addLinear (x : String) (c : α) : List (String × α) → List (String × α)
  | [] => [(x, c)]
  | (y, d) :: rest =>
    if x < y then (x, c) :: (y, d) :: rest
    else if x = y then (y, d + c) :: rest
    else (y, d) :: addLinear x c rest

/-- Whether one name with its written exponent comes before another. -/
def keyLess (k l : String × String) : Bool :=
  k.1 < l.1 || (k.1 = l.1 && k.2 < l.2)

/-- An amount added under a name and a written exponent; the first exponent found is kept. -/
def addPower (key : String × String) (c : α) (exponent : Expr α) :
    List ((String × String) × α × Expr α) → List ((String × String) × α × Expr α)
  | [] => [(key, c, exponent)]
  | (k, d, e) :: rest =>
    if keyLess key k then (key, c, exponent) :: (k, d, e) :: rest
    else if key = k then (k, d + c, e) :: rest
    else (k, d, e) :: addPower key c exponent rest

/-- An amount added under a body, or put behind all bodies if it is new. -/
def addOther (body : Expr α) (c : α) : List (Expr α × α) → List (Expr α × α)
  | [] => [(body, c)]
  | (b, d) :: rest => if b == body then (b, d + c) :: rest else (b, d) :: addOther body c rest

/-- A split term entered into the sums. -/
def add (t : Tally α) (c : α) (body : Expr α) : Tally α :=
  match constValue? body with
  | some v => { t with constant := t.constant + c * v }
  | none =>
    match body with
    | var x => { t with linear := addLinear x c t.linear }
    | binary .pow (var x) e => { t with powers := addPower (x, e.render) c e t.powers }
    | _ => { t with others := addOther body c t.others }

/-- The sums over a list of terms. -/
def ofTerms (terms : List (Expr α)) : Tally α :=
  terms.foldl (fun t e => t.add (split e).1 (split e).2) empty

end Tally

/-- A body with its coefficient as an item of a chain: a tree and the sign in front of it; nothing
for a coefficient of zero. -/
def item (c : α) (body : Expr α) : List (Sign × Expr α) :=
  if isZero c then []
  else
    let size := Arithmetic.abs c
    [(if lt c zero then .minus else .plus,
      if isOne size then body else binary .mul (number size) body)]

/-- The items of the collected chain in their final order. -/
def Tally.items (t : Tally α) : List (Sign × Expr α) :=
  t.linear.flatMap (fun (x, c) => item c (var x))
    ++ t.powers.flatMap (fun ((x, _), c, e) => item c (binary .pow (var x) e))
    ++ (if isZero t.constant then []
        else [(if lt t.constant zero then .minus else .plus, number (Arithmetic.abs t.constant))])
    ++ t.others.flatMap (fun (body, c) => item c body)

/-- The first item of a chain; a negative constant is written as a constant. -/
def leading : Sign → Expr α → Expr α
  | .plus, e => e
  | .minus, const v => number (-v)
  | .minus, e => negate e

/-- Items joined from left to right. -/
def join (first : Expr α) (rest : List (Sign × Expr α)) : Expr α :=
  rest.foldl (fun acc (s, e) => binary (if s = .minus then .sub else .add) acc e) first

/-- The collected chain of a list of terms. -/
def combine (terms : List (Expr α)) : Expr α :=
  match (Tally.ofTerms terms).items with
  | [] => integer 0
  | (s, e) :: rest => join (leading s e) rest

mutual

/-- The tree with like terms collected in every chain of sums and differences. -/
def collect : Expr α → Expr α
  | unary op e => apply op (collect e)
  | binary .add a b => combine (collectTerms .plus a ++ collectTerms .plus b)
  | binary .sub a b => combine (collectTerms .plus a ++ collectTerms .minus b)
  | binary op a b => binary op (collect a) (collect b)
  | e => e
termination_by structural e => e

/-- The terms of a chain, each with like terms collected inside it and with its sign. -/
def collectTerms (s : Sign) : Expr α → List (Expr α)
  | unary op e => [signed s (apply op (collect e))]
  | binary .add a b => collectTerms s a ++ collectTerms s b
  | binary .sub a b => collectTerms s a ++ collectTerms s.flip b
  | binary op a b => [signed s (binary op (collect a) (collect b))]
  | e => [signed s e]
termination_by structural e => e

end

/-- The collected terms of a chain are its gathered terms, each collected and under its sign. -/
theorem collectTerms_eq_map_gather (s : Sign) (e : Expr α) :
    collectTerms s e = (gather s e).map fun t => signed t.1 (collect t.2) := by
  fun_induction gather s e with
  | case1 s a b iha ihb => simp [collectTerms, iha, ihb]
  | case2 s a b iha ihb => simp [collectTerms, iha, ihb]
  | case3 s e hadd hsub =>
    cases e with
    | binary op a b => cases op <;> simp_all [collectTerms, collect]
    | _ => simp [collectTerms, collect]

end EquationEngine.Expr
