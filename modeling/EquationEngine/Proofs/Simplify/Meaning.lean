import EquationEngine.Proofs.Simplify.Meaning.Collect

/-!
Simplification preserves the value of a tree in exact arithmetic.

One sweep preserves it because its passes do, and the loop of sweeps with its restarts follows by
induction.
-/

namespace EquationEngine.Expr

open Arithmetic

variable [Exact] {E : Set ℚ} {env : Assignment ℚ}

namespace Denotes

theorem sweep (htwo : 2 ∈ E) (htext : Set.InjOn (text : ℚ → String) E) {e : Expr ℚ} {v : ℚ}
    (h : Denotes E env e v) : ∃ s, Expr.sweep e = .ok s ∧ Denotes E env s.result v := by
  obtain ⟨folded, hfold, hfolded⟩ := h.foldConstants
  obtain ⟨flat, hflat, hpeaks⟩ := hfolded.flattenPeaks
  obtain ⟨plain, hplain, hdropped⟩ := hpeaks.dropIdentities htwo
  have hcollected := (hdropped.collect_and_terms htext).1
  by_cases hconst : folded.isConst = true
  · refine ⟨.constant folded, bind_eq_ok.2 ⟨folded, hfold, ?_⟩, hfolded⟩
    rw [if_pos hconst]
    rfl
  · by_cases hconst' : flat.isConst = true
    · refine ⟨.constant flat, bind_eq_ok.2 ⟨folded, hfold, ?_⟩, hpeaks⟩
      rw [if_neg hconst]
      refine bind_eq_ok.2 ⟨flat, hflat, ?_⟩
      rw [if_pos hconst']
      rfl
    · refine ⟨.swept plain.collect, bind_eq_ok.2 ⟨folded, hfold, ?_⟩, hcollected⟩
      rw [if_neg hconst]
      refine bind_eq_ok.2 ⟨flat, hflat, ?_⟩
      rw [if_neg hconst']
      exact bind_eq_ok.2 ⟨plain, hplain, rfl⟩

theorem chain {op : NaryOp} {f : Expr ℚ → ℚ} {e : Expr ℚ} {es : List (Expr ℚ)} {v : ℚ}
    (h : Denotes E env e v) (hes : ∀ t ∈ es, Denotes E env t (f t)) :
    Denotes E env (Expr.chain op.binary e es) ((es.map f).foldl op.join v) := by
  induction es generalizing e v with
  | nil => exact h
  | cons t es ih =>
      rw [List.forall_mem_cons] at hes
      refine ih (.binary ?_ h hes.1 (apply_join op v (f t))) hes.2
      cases op <;> trivial

theorem iterate (htwo : 2 ∈ E) (htext : Set.InjOn (text : ℚ → String) E)
    {restart : Expr ℚ → Run (Expr ℚ)} {limit : Int} {v : ℚ}
    (hrestart : ∀ e, Denotes E env e v → ∃ r, (restart e).outcome = .ok r ∧ Denotes E env r v)
    {n done : Nat} {e : Expr ℚ} (h : Denotes E env e v) :
    ∃ r, (Expr.iterate restart limit n done e).outcome = .ok r ∧ Denotes E env r v := by
  induction n generalizing done e with
  | zero => exact ⟨e, rfl, h⟩
  | succ n ih =>
      obtain ⟨s, hs, hresult⟩ := h.sweep htwo htext
      rw [Expr.iterate, Run.outcome_bind_of_ok (r := Run.lift (Expr.sweep e)) hs]
      cases s with
      | constant c => exact ⟨c, rfl, hresult⟩
      | swept next =>
          dsimp only
          split_ifs
          · exact ⟨next, rfl, hresult⟩
          · exact ih hresult
          · exact hrestart next hresult

theorem simplifyWith (htwo : 2 ∈ E) (htext : Set.InjOn (text : ℚ → String) E)
    {restart : Expr ℚ → Run (Expr ℚ)} {limit : Int}
    (hrestart : ∀ e v, Denotes E env e v → ∃ r, (restart e).outcome = .ok r ∧ Denotes E env r v)
    {e : Expr ℚ} {v : ℚ} (h : Denotes E env e v) :
    ∃ r, (Expr.simplifyWith restart limit e).outcome = .ok r ∧ Denotes E env r v := by
  induction h with
  | const v => exact ⟨_, rfl, .const v⟩
  | var hx => exact ⟨_, rfl, .var hx⟩
  | unary _ hv ih =>
      obtain ⟨r, hr, h⟩ := ih
      exact ⟨_, Run.outcome_bind.2 ⟨r, hr, rfl⟩, h.foldUnary hv⟩
  | @binary op a b x y v hop ha hb hv _ _ =>
      exact iterate htwo htext (fun e he => hrestart e v he) (.binary hop ha hb hv)
  | @nary op es f hes ih =>
      match es with
      | [] => exact ⟨_, rfl, number _⟩
      | [e] =>
          rw [List.map_singleton, List.foldl_cons, List.foldl_nil, join_unit]
          exact ih e (by simp)
      | e :: e' :: es =>
          obtain ⟨he, hes⟩ := List.forall_mem_cons.1 hes
          rw [List.map_cons, List.foldl_cons, join_unit]
          exact iterate htwo htext (fun e he => hrestart e _ he) (he.chain hes)
  | polynomial _ ih => exact ih

theorem simplifyAtMost (htwo : 2 ∈ E) (htext : Set.InjOn (text : ℚ → String) E) {limit : Int}
    {n : Nat} {e : Expr ℚ} {v : ℚ} (h : Denotes E env e v) :
    ∃ r, (Expr.simplifyAtMost limit n e).outcome = .ok r ∧ Denotes E env r v := by
  induction n generalizing e v with
  | zero => exact simplifyWith htwo htext (fun e v he => ⟨e, rfl, he⟩) h
  | succ n ih => exact simplifyWith htwo htext (fun e v he => ih he) h

/-- Simplification of a tree that has a value raises no error, and its result has the value. -/
theorem simplify (htwo : 2 ∈ E) (htext : Set.InjOn (text : ℚ → String) E) (limit : Int)
    {e : Expr ℚ} {v : ℚ} (h : Denotes E env e v) :
    ∃ r, (Expr.simplify limit e).outcome = .ok r ∧ Denotes E env r v :=
  simplifyAtMost htwo htext h

theorem evaluate_eq {e : Expr ℚ} {v : ℚ} (h : Denotes E env e v) :
    evaluate env e = .ok (.number v) := by
  have heval := h.eval_eq
  induction h with
  | polynomial h ih => exact ih h.eval_eq
  | _ => rw [evaluate, heval] <;> first | rfl | simp

end Denotes

/-- An algebraic tree, or an equation between two of them. -/
def Stated : Expr ℚ → Prop
  | equation _ a b => a.Algebraic Set.univ ∧ b.Algebraic Set.univ
  | e => e.Algebraic Set.univ

theorem Algebraic.eval_of_evaluate {e : Expr ℚ} (h : Algebraic E e) {w : Value ℚ}
    (hw : evaluate env e = .ok w) : ∃ v, eval env e = .ok v ∧ w = .number v := by
  induction h with
  | polynomial _ ih => exact ih hw
  | _ =>
      obtain ⟨v, hv, hw⟩ := bind_eq_ok.1 hw
      exact ⟨v, hv, (Except.ok.inj hw).symm⟩

omit [Exact] in
/-- The sides of an equation are simplified one after the other. -/
theorem simplify_equation {α : Type} [Arithmetic α] (limit : Int) (rel : Relation)
    (a b : Expr α) : simplify limit (equation rel a b) = do
      let a' ← simplify limit a
      let b' ← simplify limit b
      return equation rel a' b' :=
  rfl

/-- In exact arithmetic, simplifying a tree that has a value under an assignment succeeds and
keeps the value; the truth of an equation is kept in the same way. -/
theorem simplify_preserves_value (htext : Function.Injective Exact.text) (limit : Int)
    {e : Expr ℚ} (he : e.Stated) {v : Value ℚ} (hv : evaluate env e = .ok v) :
    ∃ r, (simplify limit e).outcome = .ok r ∧ evaluate env r = .ok v := by
  have hside {e : Expr ℚ} (he : e.Algebraic Set.univ) {x : ℚ} (hx : eval env e = .ok x) :
      ∃ r, (simplify limit e).outcome = .ok r ∧ Denotes Set.univ env r x :=
    (he.denotes hx).simplify (Set.mem_univ 2) htext.injOn limit
  by_cases hrel : ∃ rel a b, e = equation rel a b
  · obtain ⟨rel, a, b, rfl⟩ := hrel
    obtain ⟨x, hx, hv⟩ := bind_eq_ok.1 hv
    obtain ⟨y, hy, hv⟩ := bind_eq_ok.1 hv
    obtain ⟨a', ha', ha⟩ := hside he.1 hx
    obtain ⟨b', hb', hb⟩ := hside he.2 hy
    refine ⟨equation rel a' b', ?_, ?_⟩
    · rw [simplify_equation]
      exact Run.outcome_bind.2 ⟨a', ha', Run.outcome_bind.2 ⟨b', hb', rfl⟩⟩
    · exact bind_eq_ok.2 ⟨x, ha.eval_eq, bind_eq_ok.2 ⟨y, hb.eval_eq, hv⟩⟩
  · have halg : e.Algebraic Set.univ := by
      cases e with
      | equation rel a b => exact absurd ⟨rel, a, b, rfl⟩ hrel
      | _ => exact he
    obtain ⟨x, hx, rfl⟩ := halg.eval_of_evaluate hv
    obtain ⟨r, hr, h⟩ := hside halg hx
    exact ⟨r, hr, h.evaluate_eq⟩

omit [Exact] in
/-- At `x = 2`, the tagged equation `x * x <= 1 + x / x + x ^ 3` is true before and after. -/
theorem simplify_preserves_value_at_two :
    letI := Exact.whole
    let e : Expr ℚ := equation .le (binary .mul (var "x") (var "x"))
      (nary .sum [const 1, polynomial "x" (binary .div (var "x") (var "x")),
        binary .pow (var "x") (const 3)])
    evaluate (Assignment.single "x" 2) e = .ok (.truth true) ∧
      ∃ r, (simplify 10 e).outcome = .ok r ∧
        evaluate (Assignment.single "x" 2) r = .ok (.truth true) := by
  let _ := Exact.whole
  intro e
  have he : e.Stated := by
    refine ⟨.binary trivial (.var _) (.var _), .nary ?_⟩
    simp only [List.forall_mem_cons, List.not_mem_nil, false_implies, implies_true, and_true]
    exact ⟨.const _, .polynomial (.binary trivial (.var _) (.var _)),
      .binary ⟨3, trivial, rfl⟩ (.var _) (.const _)⟩
  have hv : evaluate (Assignment.single "x" 2) e = .ok (.truth true) := by decide +kernel
  exact ⟨hv, simplify_preserves_value Exact.written_injective 10 he hv⟩

end EquationEngine.Expr
