import EquationEngine.Double.Arithmetic
import EquationEngine.Polynomial
import EquationEngine.Proofs.Expr.Nodes

/-!
Which trees are marked as polynomials, and what is stored of them.

The walk that looks for the variable of a tree answers exactly with the variable of a polynomial
shape. What is stored is the simplified tree. It may hold negations and constants of any kind, but
no operators and no variables that the shape does not have.
-/

namespace EquationEngine

open Arithmetic

/-- Whether an operator may stand between two polynomials. -/
def BinaryOp.joinsPolynomials : BinaryOp → Bool
  | add | sub | mul | mod => true
  | div | pow => false

namespace Expr

variable {α : Type} [Arithmetic α] {x : String} {e : Expr α}

/-- A number to which a variable may be raised in a polynomial. -/
def IsExponent (n : α) : Prop := isInteger n = true ∧ lt n zero = false

/-- Trees of polynomial shape in `x`. -/
inductive PolynomialIn (x : String) : Expr α → Prop
  | const {v : α} : isFinite v = true → PolynomialIn x (const v)
  | var : PolynomialIn x (var x)
  | binary {op : BinaryOp} {a b : Expr α} : op.joinsPolynomials = true →
      PolynomialIn x a → PolynomialIn x b → PolynomialIn x (binary op a b)
  | power {n : α} : IsExponent n → PolynomialIn x (binary .pow (var x) (const n))

/-- Trees that simplification makes of polynomials in `x`. -/
inductive ReducedIn (x : String) : Expr α → Prop
  | const (v : α) : ReducedIn x (const v)
  | var : ReducedIn x (var x)
  | neg {e : Expr α} : ReducedIn x e → ReducedIn x (unary .neg e)
  | binary {op : BinaryOp} {a b : Expr α} : op.joinsPolynomials = true →
      ReducedIn x a → ReducedIn x b → ReducedIn x (binary op a b)
  | power {n : α} : IsExponent n → ReducedIn x (binary .pow (var x) (const n))

theorem PolynomialIn.reduced (h : PolynomialIn x e) : ReducedIn x e := by
  induction h with
  | const _ => exact .const _
  | var => exact .var
  | binary hop _ _ iha ihb => exact .binary hop iha ihb
  | power hn => exact .power hn

omit [Arithmetic α] in
theorem joinName_eq_some {seen s : Option String} {y : String} (h : joinName seen y = some s) :
    s = some y ∧ ∀ z ∈ seen, z = y := by
  unfold joinName at h
  split at h
  · cases h
    simp
  · split at h <;> cases h
    simp_all

/-- A walk that ends without another variable than `x` began without one, and was one through a
tree of polynomial shape. -/
theorem polynomialIn_of_shapeFrom {seen s : Option String} (h : shapeFrom seen e = some s)
    (hs : ∀ y ∈ s, y = x) : PolynomialIn x e ∧ ∀ y ∈ seen, y = x := by
  fun_induction shapeFrom seen e generalizing s with
  | case1 seen v hfinite =>
      cases h
      exact ⟨.const hfinite, hs⟩
  | case3 seen y =>
      obtain ⟨rfl, hseen⟩ := joinName_eq_some h
      obtain rfl := hs y rfl
      exact ⟨.var, hseen⟩
  | case4 seen y n hn =>
      obtain ⟨rfl, hseen⟩ := joinName_eq_some h
      obtain rfl := hs y rfl
      rw [Bool.and_eq_true, Bool.not_eq_true'] at hn
      exact ⟨.power hn, hseen⟩
  | case8 seen op a b _ hpow hdiv iha ihb =>
      obtain ⟨t, ha, hb⟩ := Option.bind_eq_some_iff.1 h
      obtain ⟨hshapeb, ht⟩ := ihb t hb hs
      obtain ⟨hshapea, hseen⟩ := iha ha ht
      refine ⟨.binary ?_ hshapea hshapeb, hseen⟩
      cases op with
      | pow => exact absurd rfl hpow
      | div => exact absurd rfl hdiv
      | _ => rfl
  | _ => cases h

theorem exists_polynomialIn_of_shapeFrom {seen s : Option String}
    (h : shapeFrom seen e = some s) : ∃ x, PolynomialIn x e :=
  ⟨s.getD "", (polynomialIn_of_shapeFrom h fun y hy => by simp [Option.mem_def.1 hy]).1⟩

/-- The walk through a tree of polynomial shape finds its variable, if it occurs or was seen
before. -/
theorem PolynomialIn.shapeFrom_eq (h : PolynomialIn x e) (met : Bool) :
    shapeFrom (if met then some x else none) e =
      some (if met || e.mentions x then some x else none) := by
  induction h generalizing met with
  | const hfinite => simp [shapeFrom, hfinite, mentions]
  | var => cases met <;> simp [shapeFrom, joinName, mentions]
  | @binary op a b hop _ _ iha ihb =>
      have hwalk : shapeFrom (if met then some x else none) (.binary op a b) =
          (shapeFrom (if met then some x else none) a).bind fun s => shapeFrom s b := by
        cases op with
        | div | pow => cases hop
        | _ => rfl
      rw [hwalk, iha, Option.bind_some, ihb, mentions, Bool.or_assoc]
  | power hn => cases met <;> simp [shapeFrom, joinName, mentions, hn.1, hn.2]

/-- The variable of a tree is the one in which it is a polynomial and which occurs in it. -/
theorem polynomialVariable?_eq_some_iff :
    polynomialVariable? e = some x ↔ PolynomialIn x e ∧ e.mentions x = true := by
  rw [polynomialVariable?, Option.join_eq_some_iff]
  constructor
  · intro h
    have hshape : PolynomialIn x e := (polynomialIn_of_shapeFrom h (by simp)).1
    refine ⟨hshape, ?_⟩
    have hwalk := hshape.shapeFrom_eq false
    simpa [h] using hwalk
  · rintro ⟨hshape, hmentions⟩
    simpa [hmentions] using hshape.shapeFrom_eq false

/-! What is stored. -/

theorem ReducedIn.simple (h : ReducedIn x e) : EveryNode (Simple {x}) e := by
  induction h with
  | const v => exact everyNode_const.2 trivial
  | var => exact everyNode_var.2 rfl
  | neg _ ih => exact everyNode_unary.2 ⟨trivial, ih⟩
  | binary _ _ _ iha ihb => exact everyNode_binary.2 ⟨trivial, iha, ihb⟩
  | power _ =>
      exact everyNode_binary.2 ⟨trivial, everyNode_var.2 rfl, everyNode_const.2 trivial⟩

/-- If two may be an exponent, the reduced polynomials form a class that the passes keep. -/
theorem shape_reducedIn (htwo : IsExponent (settle (ofInt 2) : α)) (x : String) :
    Shape (ReducedIn x : Expr α → Prop) where
  number v := .const _
  neg h := .neg h
  add ha hb := .binary rfl ha hb
  sub ha hb := .binary rfl ha hb
  mul ha hb := .binary rfl ha hb
  square h := by
    cases h
    exact .power htwo
  operand h := by
    cases h
    assumption
  under h h' := by
    cases h
    exact .neg h'
  left h := by
    cases h with
    | binary _ ha _ => exact ha
    | power _ => exact .var
  right h := by
    cases h with
    | binary _ _ hb => exact hb
    | power _ => exact .const _
  again hop h ha hb := by
    cases h with
    | binary hjoins _ _ => exact .binary hjoins ha hb
    | power _ => exact absurd rfl hop
  power h := by
    cases h with
    | binary hjoins _ _ => cases hjoins
    | power _ => exact .inr ⟨_, _, rfl, rfl⟩
  part h := by cases h
  side h := by cases h
  relate h := by cases h
  body h := by cases h

theorem isExponent_two : IsExponent (settle (ofInt 2) : Float) := by
  constructor <;> decide +kernel

/-- Exactly the trees of polynomial shape in a variable that occurs in them are marked with it.
What is stored under the mark has no other variable, and is made of constants, the variable,
negations, sums, differences, products, remainders and powers of the variable. -/
theorem tag_marks_polynomials (limit : Int) (e : Expr Float) :
    (∀ x, polynomialVariable? e = some x ↔ PolynomialIn x e ∧ e.mentions x = true) ∧
    (∀ x, PolynomialIn x e → e.mentions x = true → tag limit e = mark limit x e) ∧
    ((∀ x, PolynomialIn x e → e.mentions x = false) → tag limit e = pure e) ∧
    ∀ x n, PolynomialIn x e → e.mentions x = true → (tag limit e).outcome = .ok n →
      ∃ body, n = polynomial x body ∧ (simplify limit e).outcome = .ok body ∧
        ReducedIn x body ∧ ∀ y ∈ body.names, y = x := by
  have hmark : ∀ x, PolynomialIn x e → e.mentions x = true → tag limit e = mark limit x e := by
    intro x hshape hmentions
    rw [tag, polynomialVariable?_eq_some_iff.2 ⟨hshape, hmentions⟩]
  refine ⟨fun x => polynomialVariable?_eq_some_iff, hmark, fun hnone => ?_, ?_⟩
  · cases hx : polynomialVariable? e with
    | none => rw [tag, hx]
    | some x =>
        obtain ⟨hshape, hmentions⟩ := polynomialVariable?_eq_some_iff.1 hx
        rw [hnone x hshape] at hmentions
        cases hmentions
  · intro x n hshape hmentions hn
    rw [hmark x hshape hmentions] at hn
    obtain ⟨body, hbody, hn⟩ := Run.outcome_bind.1 hn
    cases hn
    obtain ⟨_, -, hbody⟩ := Run.outcome_bind.1 hbody
    have hreduced := (shape_reducedIn isExponent_two x).keeps hshape.reduced hbody
    exact ⟨body, rfl, hbody, hreduced, fun y => hreduced.simple.names_subset⟩

/-- The difference `3 - x * x` is a polynomial in `x`, and is stored as `-x ^ 2 + 3`. -/
theorem tag_marks_polynomials_difference :
    let e : Expr Float := binary .sub (integer 3) (binary .mul (var "x") (var "x"))
    let body : Expr Float :=
      binary .add (unary .neg (binary .pow (var "x") (integer 2))) (integer 3)
    polynomialVariable? e = some "x" ∧ (tag 5 e).outcome = .ok (polynomial "x" body) ∧
      ReducedIn "x" body ∧ ∀ y ∈ body.names, y = "x" := by
  intro e body
  have hshape : PolynomialIn "x" e :=
    .binary rfl (.const (by decide +kernel)) (.binary rfl .var .var)
  have htag : (tag 5 e).outcome = .ok (polynomial "x" body) := rfl
  have hmarks := tag_marks_polynomials 5 e
  obtain ⟨_, ⟨⟩, -, hreduced, hnames⟩ := hmarks.2.2.2 "x" _ hshape rfl htag
  exact ⟨(hmarks.1 "x").2 ⟨hshape, rfl⟩, htag, hreduced, hnames⟩

end Expr

end EquationEngine
