import Mathlib.Data.Set.Basic
import EquationEngine.Double.Arithmetic
import EquationEngine.Proofs.Solve.Search

/-!
Results of solving are well formed.

Sides may hold constants, variables, operators over one and two operands, and marks. The first
simplification removes the marks, and from then on the sides are made of the other four, with the
variables of the given equation. Such a side can always be taken apart where it holds the
variable.
-/

namespace EquationEngine

open EquationEngine.Expr

namespace Expr

variable {α : Type} {V : Set String} {x : String}

/-- A node of a tree that an equation to be solved may hold, with variables of `V`. -/
def Solvable (V : Set String) : Expr α → Prop
  | var y => y ∈ V
  | nary .. | equation .. => False
  | const _ | unary .. | binary .. | polynomial .. => True

theorem EveryNode.unmarked_simple {e : Expr α} (h : EveryNode (Solvable V) e) :
    EveryNode (Simple V) e.unmarked := by
  induction e with
  | const v => exact everyNode_const.2 trivial
  | var y => exact everyNode_var.2 h.root
  | unary op e ih => exact everyNode_unary.2 ⟨trivial, ih (everyNode_unary.1 h).2⟩
  | binary op a b iha ihb =>
      obtain ⟨-, ha, hb⟩ := everyNode_binary.1 h
      exact everyNode_binary.2 ⟨trivial, iha ha, ihb hb⟩
  | polynomial y e ih => exact ih (everyNode_polynomial.1 h).2
  | nary op es => exact h.root.elim
  | equation r a b => exact h.root.elim

/-- A simplified side that a variable is not found in has no node that brings it in. -/
theorem EveryNode.not_mem_names {e : Expr α} (h : EveryNode (Simple V) e)
    (hx : e.mentions x = false) : x ∉ e.names := by
  rw [← h.mentions_iff, hx]
  exact Bool.false_ne_true

theorem simple_kind {n : Expr α} (h : Simple V n) :
    n.kind ≠ .polynomial ∧ n.kind ≠ .nary ∧ n.kind ≠ .equation := by
  cases n <;> first | exact h.elim | exact ⟨nofun, nofun, nofun⟩

end Expr

namespace Solver

variable {α : Type} [Arithmetic α] {V : Set String}

theorem inverting_simple : Inverting (EveryNode (Simple V) : Expr α → Prop) where
  integer _ := everyNode_const.2 trivial
  apply _ _ h := shallow_simple.shape.apply (everyNode_unary.2 ⟨trivial, h⟩) h
  binary _ ha hb := everyNode_binary.2 ⟨trivial, ha, hb⟩
  operand h := (everyNode_unary.1 h).2
  left h := (everyNode_binary.1 h).2.1
  right h := (everyNode_binary.1 h).2.2

/-- With iterations to spend, simplification keeps a class of trees. -/
theorem simplifies_of_shape {Q : Expr α → Prop} (hQ : Shape Q) {limit : Int} (hlimit : 1 ≤ limit) :
    Simplifies limit (fun e => Q e.unmarked) Q fun err =>
      err = .divisionByZero ∨ err = .modulusByZero ∨ err = .remainderOfInfinity := by
  intro e h
  constructor
  · intro r hr
    obtain ⟨_, _, hr⟩ := Run.outcome_bind.1 hr
    obtain hr | ⟨hzero, _⟩ := hQ.simplify h hr
    · exact hr
    · omega
  · intro err herr
    cases (simplifyConfigured_error herr).2 with
    | division => exact .inl rfl
    | modulus => exact .inr (.inl rfl)
    | remainder _ => exact .inr (.inr rfl)

omit [Arithmetic α] in
/-- A search among trees without marks and flat chains never meets a kind of tree that it cannot
take apart. -/
theorem SearchError.of_simple {s : Solver} {err : Error}
    (h : SearchError s (EveryNode (Simple V) : Expr α → Prop) err) :
    err = .depthExceeded s.name s.maxDepth ∨ (∃ text, err = .bothOperands s.name text) ∨
      err = .modulusNotInvertible := by
  cases h with
  | depth => exact .inl rfl
  | both text => exact .inr (.inl ⟨text, rfl⟩)
  | modulus => exact .inr (.inr rfl)
  | @kind e hsimple hx hvar hunary hbinary =>
      have hroot := hsimple.root
      cases e with
      | const v => simp [mentions] at hx
      | var y => exact absurd rfl hvar
      | unary op e => exact absurd rfl hunary
      | binary op a b => exact absurd rfl hbinary
      | nary op es => exact hroot.elim
      | equation r a b => exact hroot.elim
      | polynomial y e => exact hroot.elim

end Solver

namespace Expr

variable {α : Type}

/-- A side of an equation to be solved: no flat sum or product and no equation in it. -/
def IsSide (e : Expr α) : Prop := ∀ n ∈ e.depthFirst, n.kind ≠ .nary ∧ n.kind ≠ .equation

theorem IsSide.solvable {e : Expr α} (h : e.IsSide) {V : Set String} (hV : ∀ y ∈ e.names, y ∈ V) :
    EveryNode (Solvable V) e := by
  intro n hn
  obtain ⟨hnary, hequation⟩ := h n hn
  cases n with
  | var y => exact hV y (mem_names.2 ⟨_, hn, rfl⟩)
  | nary op es => exact absurd rfl hnary
  | equation r a b => exact absurd rfl hequation
  | _ => trivial

/-- Solving an equality whose sides hold no flat sum or product ends in a result whose kind says
how many values it has. The values are free of the variable, have no other variables than the
equation, and hold no mark and no flat sum or product. If solving ends in an error, the variable
stood in both operands of an operator or below a remainder, the depth was exceeded, or a
simplification failed; no side is ever of a kind that cannot be taken apart. -/
theorem solveFor_wellFormed [Arithmetic α] {left right : Expr α} (hl : left.IsSide)
    (hr : right.IsSide) (x : String) {limit : Int} (hlimit : 1 ≤ limit) (maxDepth : Int) :
    (∀ sol, ((equation .eq left right).solveFor limit maxDepth x).outcome = .ok sol →
      (sol.kind = .single ↔ sol.values.length = 1) ∧
      (sol.kind = .multiple ↔ 2 ≤ sol.values.length) ∧
      (sol.kind = .tautology ∨ sol.kind = .notFound ↔ sol.values = []) ∧
      ∀ v ∈ sol.values, v.mentions x = false ∧ x ∉ v.names ∧
        (∀ y ∈ v.names, y ∈ (equation .eq left right).names) ∧
        ∀ n ∈ v.depthFirst, n.kind ≠ .polynomial ∧ n.kind ≠ .nary ∧ n.kind ≠ .equation) ∧
    ∀ err, ((equation .eq left right).solveFor limit maxDepth x).outcome = .error err →
      err = .depthExceeded x maxDepth ∨ (∃ text, err = .bothOperands x text) ∨
      err = .modulusNotInvertible ∨ err = .divisionByZero ∨ err = .modulusByZero ∨
      err = .remainderOfInfinity := by
  have hnames {e : Expr α} {y : String} (hy : y ∈ e.names)
      (he : e ∈ (equation .eq left right).children) : y ∈ (equation .eq left right).names := by
    obtain ⟨n, hn, hname⟩ := mem_names.1 hy
    refine mem_names.2 ⟨n, ?_, hname⟩
    rw [depthFirst_eq_cons]
    exact List.mem_cons_of_mem _ (mem_depthFirstAll.2 ⟨e, he, hn⟩)
  have hl := (hl.solvable fun y hy => hnames hy (by simp [children])).unmarked_simple
  have hr := (hr.solvable fun y hy => hnames hy (by simp [children])).unmarked_simple
  have hends := Solver.solve_ends (s := ⟨x, maxDepth⟩) Solver.inverting_simple
    (fun _ h => shallow_simple.shape.unmarked h)
    (Solver.simplifies_of_shape shallow_simple.shape hlimit) hl hr
  constructor
  · intro sol hsol
    have hwell := hends.1 sol hsol
    refine ⟨hwell.single, hwell.multiple, hwell.finding, fun v hv => ?_⟩
    obtain ⟨hsimple, hx⟩ := hwell.values v hv
    exact ⟨hx, hsimple.not_mem_names hx, fun y => hsimple.names_subset,
      fun n hn => simple_kind (hsimple n hn)⟩
  · intro err herr
    rcases hends.2 err herr with (rfl | rfl | rfl) | hsearch
    · simp
    · simp
    · simp
    · rcases hsearch.of_simple with rfl | ⟨text, rfl⟩ | rfl <;> simp

set_option maxRecDepth 8000 in
/-- The two values of `x` in `x ^ 2 = y`, with the square marked as a polynomial. -/
theorem solveFor_wellFormed_square :
    let e : Expr Float := equation .eq
      (polynomial "x" (binary .pow (var "x") (integer 2))) (var "y")
    let root : Expr Float := binary .pow (var "y") (const 0.5)
    (e.solveFor 5 5 "x").outcome = .ok ⟨.multiple, [root, unary .neg root]⟩ ∧
      "x" ∉ (unary .neg root).names ∧ ∀ y ∈ (unary .neg root).names, y ∈ e.names := by
  intro e root
  have hl : (polynomial "x" (binary .pow (var "x") (integer 2)) : Expr Float).IsSide := by
    simp [IsSide, depthFirst, kind, integer, number]
  have hr : (var "y" : Expr Float).IsSide := by
    simp [IsSide, depthFirst, kind]
  have hsol : (e.solveFor 5 5 "x").outcome = .ok ⟨.multiple, [root, unary .neg root]⟩ := rfl
  obtain ⟨-, -, -, hvalues⟩ := (solveFor_wellFormed hl hr "x" (by decide) 5).1 _ hsol
  obtain ⟨-, hx, hnames, -⟩ := hvalues (unary .neg root) (by simp)
  exact ⟨hsol, hx, hnames⟩

end Expr

end EquationEngine
