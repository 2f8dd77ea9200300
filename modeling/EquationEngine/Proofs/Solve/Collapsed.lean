import EquationEngine.Proofs.Expr.RoundTrip
import EquationEngine.Proofs.Solve.Search

/-!
The rules that every stored tree obeys.

No rule of reading, simplifying or solving puts a bare negation or absolute value on a tree it has
not looked at: `apply` and `negate` collapse it with a negation below. Constants are stored by
`number`, which has no negative zero. So trees that are free of nested negations and of negative
zeros stay so. They are no shape, since a bare negation may stand on one of them and not on
another; they are a stable class nevertheless.
-/

namespace EquationEngine

open EquationEngine.Expr Grammar

namespace Double

theorem settle_ne_neg_zero (x : Float) : Arithmetic.settle x ≠ -0.0 := by
  have hparts : (-0.0 : Float).toModel.unpack = .zero .negative := rfl
  intro h
  exact settle_ne_negative_zero x (h ▸ hparts)

end Double

namespace Expr

/-- A node that is no negative zero and no negation or absolute value of a negation. -/
def Tidy : Expr Float → Prop
  | const v => v ≠ -0.0
  | unary .neg (unary .neg _) | unary .abs (unary .neg _) => False
  | _ => True

/-- Nowhere in a tree is there a negative zero, or a negation or absolute value of a negation. -/
def Collapsed (e : Expr Float) : Prop := EveryNode Tidy e

theorem Collapsed.number (v : Float) : Collapsed (number v) :=
  everyNode_const.2 (Double.settle_ne_neg_zero v)

theorem Collapsed.operand {op : UnaryOp} {e : Expr Float} (h : Collapsed (unary op e)) :
    Collapsed e :=
  (everyNode_unary.1 h).2

theorem Collapsed.binary (op : BinaryOp) {a b : Expr Float} (ha : Collapsed a)
    (hb : Collapsed b) : Collapsed (binary op a b) :=
  everyNode_binary.2 ⟨trivial, ha, hb⟩

/-- Where no rule of collapsing applies, the operator is put on the tree as it is, and there is
nothing below that it would have to collapse with. -/
theorem Collapsed.apply (op : UnaryOp) {e : Expr Float} (h : Collapsed e) :
    Collapsed (apply op e) := by
  fun_induction Expr.apply op e with
  | case1 e => exact h.operand
  | case2 e ih => exact ih h.operand
  | case3 op e hneg habs =>
      refine everyNode_unary.2 ⟨?_, h⟩
      unfold Tidy
      split <;> rename_i heq
      · cases heq
      · cases heq
        exact hneg _ rfl rfl
      · cases heq
        exact habs _ rfl rfl
      · trivial

theorem stable_collapsed : Stable Collapsed where
  number := Collapsed.number
  negate h := h.apply .neg
  add ha hb := ha.binary .add hb
  sub ha hb := ha.binary .sub hb
  mul ha hb := ha.binary .mul hb
  square h := h.binary .pow (Collapsed.number _)
  operand h := h.operand
  left h := (everyNode_binary.1 h).2.1
  right h := (everyNode_binary.1 h).2.2
  apply _ h := h.apply _
  again _ _ ha hb := ha.binary _ hb
  power _ := .inl fun _ _ ha hb => ha.binary .pow hb
  part h he := (everyNode_nary.1 h).2 _ he
  side h := (everyNode_equation.1 h).2
  relate _ ha hb := everyNode_equation.2 ⟨trivial, ha, hb⟩
  body h := (everyNode_polynomial.1 h).2

/-! Reading. -/

theorem collapsed_of_derives {c : Category} {ls : List Lexeme} {e : Expr Float}
    (h : Derives c ls e) : Collapsed e :=
  h.rule (fun _ => Collapsed.number _) (fun _ _ => everyNode_var.2 trivial)
    (fun op _ he => he.apply op) fun op _ _ _ ha hb => ha.binary op hb

theorem Collapsed.tag {limit : Int} {e n : Expr Float} (h : Collapsed e)
    (hn : (tag limit e).outcome = .ok n) : Collapsed n := by
  unfold Expr.tag at hn
  split at hn
  · obtain ⟨body, hbody, hn⟩ := Run.outcome_bind.1 hn
    cases hn
    obtain ⟨_, -, hbody⟩ := Run.outcome_bind.1 hbody
    exact everyNode_polynomial.2 ⟨trivial, stable_collapsed.keeps h hbody⟩
  · cases hn
    exact h

theorem collapsed_of_parse {limit : Int} {text : String} {n : Expr Float}
    (h : (parse limit text).outcome = .ok n) : Collapsed n := by
  obtain ⟨tokens, -, h⟩ := Run.outcome_bind.1 h
  have hstored := Parser.stored_of_outcome h
  generalize tokens.list.map (·.lexeme) = ls at hstored
  cases hstored with
  | expression he htag => exact (collapsed_of_derives he).tag htag
  | equation r _ ha hatag hb hbtag =>
      exact everyNode_equation.2 ⟨trivial, (collapsed_of_derives ha).tag hatag,
        (collapsed_of_derives hb).tag hbtag⟩

end Expr

/-! Solving. -/

namespace Solver

theorem inverting_collapsed : Inverting Collapsed where
  integer _ := Collapsed.number _
  apply op _ h := h.apply op
  binary _ ha hb := ha.binary _ hb
  operand h := h.operand
  left h := stable_collapsed.left h
  right h := stable_collapsed.right h

/-- Whatever its errors are, simplification keeps a stable class of trees. -/
theorem simplifies_of_stable {P : Expr Float → Prop} (hP : Stable P) (limit : Int) :
    Simplifies limit P P fun _ => True := by
  refine fun e h => ⟨fun r hr => ?_, fun _ _ => trivial⟩
  obtain ⟨_, -, hr⟩ := Run.outcome_bind.1 hr
  exact hP.keeps h hr

end Solver

namespace Expr

theorem collapsed_of_solveFor {limit maxDepth : Int} {x : String} {e : Expr Float}
    {sol : Solution Float} (h : Collapsed e)
    (hsol : (e.solveFor limit maxDepth x).outcome = .ok sol) : ∀ v ∈ sol.values, Collapsed v := by
  cases e with
  | equation r a b =>
      by_cases hr : r = .eq
      · subst hr
        obtain ⟨ha, hb⟩ := stable_collapsed.side h
        have hends := Solver.solve_ends (s := ⟨x, maxDepth⟩) Solver.inverting_collapsed
          (fun _ h => h) (Solver.simplifies_of_stable stable_collapsed limit) ha hb
        exact fun v hv => ((hends.1 sol hsol).values v hv).1
      · rw [solveFor, Solver.solve, if_neg hr] at hsol
        cases hsol
  | _ => cases hsol

/-- What is read obeys the rules of storage: in no tree is there a negative zero, or a negation or
absolute value directly on a negation. Every pass keeps the rules, whatever it rewrites; so do
simplification and solving under any limits. -/
theorem storage_rules_kept :
    (∀ (limit : Int) (text : String) (n : Expr Float), (parse limit text).outcome = .ok n →
      Collapsed n) ∧
    (∀ (op : NaryOp) (es : List (Expr Float)), Collapsed (nary op es) →
      Collapsed (unflatten op es)) ∧
    (∀ e r : Expr Float, Collapsed e → flattenable? e = some r → Collapsed r) ∧
    (∀ e r : Expr Float, Collapsed e → foldConstants e = .ok r → Collapsed r) ∧
    (∀ e r : Expr Float, Collapsed e → flattenPeaks e = .ok r → Collapsed r) ∧
    (∀ e r : Expr Float, Collapsed e → dropIdentities e = .ok r → Collapsed r) ∧
    (∀ e : Expr Float, Collapsed e → Collapsed (collect e)) ∧
    (∀ (limit : Int) (e r : Expr Float), Collapsed e → (simplify limit e).outcome = .ok r →
      Collapsed r) ∧
    ∀ (limit maxDepth : Int) (x : String) (e : Expr Float) (sol : Solution Float), Collapsed e →
      (e.solveFor limit maxDepth x).outcome = .ok sol → ∀ v ∈ sol.values, Collapsed v := by
  refine ⟨fun _ _ _ => collapsed_of_parse, fun op es h => ?_,
    fun _ _ => stable_collapsed.flattenable, fun _ _ => stable_collapsed.foldConstants,
    fun _ _ => stable_collapsed.flattenPeaks, fun _ _ => stable_collapsed.dropIdentities,
    fun _ => stable_collapsed.collect, fun _ _ _ => stable_collapsed.keeps,
    fun _ _ _ _ _ => collapsed_of_solveFor⟩
  cases es with
  | nil => exact Collapsed.number _
  | cons e es =>
      refine stable_collapsed.chain (stable_collapsed.part h List.mem_cons_self) fun t ht => ?_
      exact stable_collapsed.part h (List.mem_cons_of_mem e ht)

set_option maxRecDepth 8000 in
/-- Two signs in front of `x` leave none; so does a sign in front of `-x` whose mark is removed, and
solving `-x = -y`. -/
theorem storage_rules_kept_signs :
    let marked : Expr Float := unary .neg (polynomial "x" (unary .neg (var "x")))
    let e : Expr Float := equation .eq (unary .neg (var "x")) (unary .neg (var "y"))
    ((parse 5 "-(-x)").outcome = .ok (polynomial "x" (var "x") : Expr Float) ∧
      Collapsed (polynomial "x" (var "x"))) ∧
    (Collapsed marked ∧ foldConstants marked = .ok (var "x") ∧ Collapsed (var "x")) ∧
    (e.solveFor 5 5 "x").outcome = .ok ⟨.single, [var "y"]⟩ ∧ Collapsed (var "y") := by
  intro marked e
  have hmarked : Collapsed marked := by simp [marked, Collapsed, Tidy]
  have he : Collapsed e := by simp [e, Collapsed, Tidy]
  have hsol : (e.solveFor 5 5 "x").outcome = .ok ⟨.single, [var "y"]⟩ := rfl
  have hscans : Token.Scans "-(-x)".toList
      [.symbol .minus, .symbol .openParen, .symbol .minus, .name "x", .symbol .closeParen] :=
    fun _ => ⟨_, rfl, rfl⟩
  have hx : Derives .unary [.symbol .minus, .name "x"] (negate (var "x") : Expr Float) :=
    .negation (.unsigned (.base (.name "x")))
  have hn : (parse 5 "-(-x)").outcome = .ok (polynomial "x" (var "x") : Expr Float) := by
    rw [parse_eq_tag hscans (.term (.factor (.negation (.unsigned (.base (.group (.term
      (.factor hx))))))))]
    rfl
  obtain ⟨hparse, -, -, hfold, -, -, -, -, hsolve⟩ := storage_rules_kept
  exact ⟨⟨hn, hparse 5 _ _ hn⟩, ⟨hmarked, rfl, hfold marked _ hmarked rfl⟩, hsol,
    hsolve 5 5 "x" e _ he hsol _ List.mem_cons_self⟩

end Expr

end EquationEngine
