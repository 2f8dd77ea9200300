import EquationEngine.Proofs.Simplify.Untouched

/-!
What simplification leaves alone.

A tree is normal if it is a leaf, a binary tree that one sweep gives back unchanged, an operator
over a normal operand with which it does not combine, or an equation between normal sides. A
simplification that completes ends in a normal tree. Simplifying a normal tree whose constants equal
themselves completes at once with the same tree.

The loop compares trees before and after a sweep as numbers compare. Two constants that compare
equal have to be the same constant for the sweep to be repeated; the number type promises this for
constants in the form in which they are stored.
-/

namespace EquationEngine

open Arithmetic

/-- Number types in which stored constants that compare equal are equal. -/
class Arithmetic.LawfulSettle (α : Type) [Arithmetic α] : Prop where
  eq_of_beq (x y : α) : (settle x == settle y) = true → settle x = settle y

namespace Expr

variable {α : Type} [Arithmetic α]

/-- Every constant of a tree has the form in which constants are stored. -/
def Settled (e : Expr α) : Prop := e.EveryConst fun v => ∃ u, v = settle u

theorem eq_of_beq_of_settled [LawfulSettle α] {s t : Expr α} (hs : s.Settled) (ht : t.Settled)
    (h : (s == t) = true) : s = t := by
  refine eq_of_beq ?_ hs ht h
  rintro u v ⟨x, rfl⟩ ⟨y, rfl⟩ huv
  exact LawfulSettle.eq_of_beq x y huv

/-- The trees with stored constants form a class that the passes keep. -/
theorem shape_settled : Shape (Settled : Expr α → Prop) := shape_everyConst fun v => ⟨v, rfl⟩

/-- A sweep that changes nothing of a tree with stored constants gives back that very tree. -/
theorem eq_of_unchanged [LawfulSettle α] {e next : Expr α} (he : e.Settled)
    (hs : sweep e = .ok (.swept next)) (h : unchanged e next = true) : next = e := by
  rcases Bool.or_eq_true_iff.1 h with hbeq | hself
  · exact eq_of_beq_of_settled (shape_settled.sweep (shape_settled.unmarked he) hs) he hbeq
  · refine eq_of_untouched (fun v => ⟨v, rfl⟩) ?_ he (Bool.and_eq_true_iff.1 hself).2 hs
    rintro u v ⟨x, rfl⟩ ⟨y, rfl⟩ huv
    exact LawfulSettle.eq_of_beq x y huv

/-- The trees that simplification gives back. -/
inductive Normal : Expr α → Prop
  | const (v : α) : Normal (const v)
  | var (x : String) : Normal (var x)
  /-- An operator that neither folds nor cancels with its operand. -/
  | unary {op : UnaryOp} {e : Expr α} : Normal e → foldUnary op e = unary op e →
      Normal (unary op e)
  /-- A binary tree that a sweep leaves as it is. -/
  | swept {op : BinaryOp} {a b : Expr α} :
      sweep (binary op a b) = .ok (.swept (binary op a b)) → Normal (binary op a b)
  | equation {r : Relation} {a b : Expr α} : Normal a → Normal b → Normal (equation r a b)

theorem Normal.operand {op : UnaryOp} {e : Expr α} (h : Normal (.unary op e)) : Normal e := by
  cases h with
  | unary h _ => exact h

omit [Arithmetic α] in
theorem apply_of_ne_neg {op : UnaryOp} {e : Expr α} (h : ∀ t, e ≠ unary .neg t) :
    apply op e = unary op e := by
  cases e with
  | unary op' t =>
      cases op' with
      | neg => exact absurd rfl (h t)
      | _ => cases op <;> rfl
  | _ => cases op <;> rfl

theorem foldUnary_of_constValue {op : UnaryOp} {e : Expr α} (h : constValue? e = none) :
    foldUnary op e = apply op e := by
  cases op <;> simp [foldUnary, h]

/-- The operand of a normal negation is no negation. -/
theorem Normal.ne_neg {e : Expr α} (h : Normal (.unary .neg e)) (t : Expr α) :
    e ≠ .unary .neg t := by
  rintro rfl
  cases h with
  | unary _ hfold =>
      simp only [Expr.foldUnary] at hfold
      split at hfold
      · cases hfold
      · -- two negations cancel, so the tree would be smaller than itself
        have hsize := congrArg size hfold
        simp only [apply, size] at hsize
        omega

theorem Normal.apply {op : UnaryOp} {e : Expr α} (h : Normal e) (hopen : constValue? e = none) :
    Normal (Expr.apply op e) := by
  by_cases hneg : ∃ t, e = .unary .neg t
  · obtain ⟨t, rfl⟩ := hneg
    have happly (op : UnaryOp) : Expr.apply op t = .unary op t := apply_of_ne_neg h.ne_neg
    have hinner : constValue? t = none := by simpa [constValue?] using hopen
    cases op with
    | neg => exact h.operand
    | abs =>
        show Normal (Expr.apply .abs t)
        rw [happly]
        exact .unary h.operand ((foldUnary_of_constValue hinner).trans (happly _))
    | log => exact .unary h rfl
    | exp => exact .unary h rfl
  · have happly : Expr.apply op e = .unary op e := apply_of_ne_neg fun t ht => hneg ⟨t, ht⟩
    rw [happly]
    exact .unary h ((foldUnary_of_constValue hopen).trans happly)

theorem Normal.foldUnary {op : UnaryOp} {e : Expr α} (h : Normal e) :
    Normal (Expr.foldUnary op e) := by
  cases hvalue : constValue? e with
  | none =>
      rw [foldUnary_of_constValue hvalue]
      exact h.apply hvalue
  | some v =>
      cases op with
      | neg =>
          rw [Expr.foldUnary, hvalue]
          exact .const _
      | abs =>
          rw [Expr.foldUnary, hvalue]
          exact .const _
      | log =>
          have hlog : Expr.foldUnary .log e = .unary .log e := by simp [Expr.foldUnary, Expr.apply]
          exact hlog ▸ .unary h hlog
      | exp =>
          have hexp : Expr.foldUnary .exp e = .unary .exp e := by simp [Expr.foldUnary, Expr.apply]
          exact hexp ▸ .unary h hexp

/-! Completed simplification ends in normal trees. -/

theorem normal_of_isConst {e : Expr α} (h : e.isConst = true) : Normal e := by
  cases e <;> simp [isConst] at h
  exact .const _

theorem isConst_of_sweep_constant {e c : Expr α} (h : sweep e = .ok (.constant c)) :
    c.isConst = true := by
  obtain ⟨folded, _, ⟨hconst, hs⟩ | ⟨_, flat, _, ⟨hconst, hs⟩ | ⟨_, plain, _, hs⟩⟩⟩ :=
    sweep_cases h <;> cases hs
  · exact hconst
  · exact hconst

theorem normal_of_iterate [LawfulSettle α] {restart : Expr α → Run (Expr α)} {limit : Int}
    (hrestart : ∀ e r, e.Settled → (restart e).Completes r → Normal r)
    {n done : Nat} {op : BinaryOp} {a b r : Expr α} (h : (binary op a b).Settled)
    (hr : (iterate restart limit n done (binary op a b)).Completes r) : Normal r := by
  induction n generalizing done op a b with
  | zero =>
      -- a loop that reaches its bound reports so, and has not completed
      obtain ⟨_, hemit, _⟩ := Run.completes_bind.1 hr
      simp [Event.isBound] at hemit
  | succ n ih =>
      have hnext {next : Expr α} (hs : sweep (binary op a b) = .ok (.swept next)) : next.Settled :=
        shape_settled.sweep (shape_settled.unmarked h) hs
      have hturn := turn restart limit n done (binary op a b)
      generalize iterate restart limit (n + 1) done (binary op a b) = run at hr hturn
      cases hturn with
      | failed _ => exact absurd hr Run.not_completes_fail
      | constant hs =>
          obtain rfl := Run.completes_pure.1 hr
          exact normal_of_isConst (isConst_of_sweep_constant hs)
      | still hs hstop =>
          obtain ⟨_, _, hr⟩ := Run.completes_bind.1 hr
          obtain rfl := Run.completes_pure.1 hr
          rcases Bool.or_eq_true_iff.1 hstop with hconst | hsame
          · exact normal_of_isConst hconst
          · have hsame := eq_of_unchanged h hs hsame
            rw [hsame] at hs ⊢
            exact .swept hs
      | @again next hs hbinary =>
          cases next <;> simp [isBinary] at hbinary
          exact ih (hnext hs) hr
      | collapsed hs _ => exact hrestart _ r (hnext hs) hr

omit [Arithmetic α] in
theorem exists_chain_eq_binary (op : BinaryOp) (e e' : Expr α) (es : List (Expr α)) :
    ∃ op' a b, chain op e (e' :: es) = binary op' a b := by
  induction es generalizing e e' with
  | nil => exact ⟨_, _, _, rfl⟩
  | cons t es ih => exact ih (binary op e e') t

theorem normal_of_simplifyWith [LawfulSettle α] {restart : Expr α → Run (Expr α)} {limit : Int}
    (hrestart : ∀ e r, e.Settled → (restart e).Completes r → Normal r)
    {e r : Expr α} (h : e.Settled) (hr : (simplifyWith restart limit e).Completes r) :
    Normal r := by
  induction e generalizing r with
  | const v =>
      rw [simplifyWith, Run.completes_pure] at hr
      rw [← hr]
      exact .const v
  | var x =>
      rw [simplifyWith, Run.completes_pure] at hr
      rw [← hr]
      exact .var x
  | unary op e ih =>
      rw [simplifyWith] at hr
      obtain ⟨e', he, hr⟩ := Run.completes_bind.1 hr
      rw [Run.completes_pure] at hr
      rw [← hr]
      exact (ih h he).foldUnary
  | binary op a b _ _ => exact normal_of_iterate hrestart h hr
  | nary op es ih =>
      have hparts := fun e (he : e ∈ es) => shape_settled.part h he
      match es with
      | [] =>
          rw [simplifyWith, Run.completes_pure] at hr
          rw [← hr]
          exact .const _
      | [e] => exact ih e (by simp) (hparts e (by simp)) hr
      | e :: e' :: es =>
          have hchain : (chain op.binary e (e' :: es)).Settled :=
            shape_settled.chain (hparts e (by simp))
              fun t ht => hparts t (List.mem_cons_of_mem _ ht)
          obtain ⟨op', a, b, heq⟩ := exists_chain_eq_binary op.binary e e' es
          rw [simplifyWith, unflatten, heq] at hr
          rw [heq] at hchain
          exact normal_of_iterate hrestart hchain hr
  | equation rel a b iha ihb =>
      rw [simplifyWith] at hr
      obtain ⟨a', ha, hr⟩ := Run.completes_bind.1 hr
      obtain ⟨b', hb, hr⟩ := Run.completes_bind.1 hr
      rw [Run.completes_pure] at hr
      rw [← hr]
      exact .equation (iha h.1 ha) (ihb h.2 hb)
  | polynomial x e ih => exact ih h hr

/-- A completed simplification ends in a normal tree. -/
theorem normal_of_simplify [LawfulSettle α] {limit : Int} {e r : Expr α} (h : e.Settled)
    (hr : (simplify limit e).Completes r) : Normal r := by
  suffices ∀ n e r, e.Settled → (simplifyAtMost limit n e).Completes r → Normal r from
    this restartLimit e r h hr
  intro n
  induction n with
  | zero =>
      intro e r h hr
      refine normal_of_simplifyWith ?_ h hr
      intro t u _ hu
      obtain ⟨_, hemit, _⟩ := Run.completes_bind.1 hu
      simp [Event.isBound] at hemit
  | succ n ih => exact fun e r h hr => normal_of_simplifyWith ih h hr

/-! Normal trees are left alone. -/

theorem sweep_congr {s t : Expr α} (h : foldConstants s = foldConstants t) :
    sweep s = sweep t := by
  rw [sweep, sweep, h]

/-- A tree that a sweep leaves as it is stays, however many sweeps are left. -/
theorem iterate_of_swept {restart : Expr α → Run (Expr α)} {limit : Int} (n done : Nat)
    {e : Expr α} (hself : e.EveryConst fun v => (v == v) = true) (he : sweep e = .ok (.swept e)) :
    (iterate restart limit n done e).outcome = .ok e := by
  cases n with
  | zero => rfl
  | succ n =>
      rw [iterate, Run.outcome_bind_of_ok (b := .swept e) he]
      simp only [unchanged_eq_beq hself, beq_self hself, Bool.or_true, if_true]
      rfl

theorem Normal.simplifyWith {restart : Expr α → Run (Expr α)} {limit : Int} (hlimit : 1 ≤ limit)
    {e : Expr α} (h : Normal e) (hself : e.EveryConst fun v => (v == v) = true) :
    (Expr.simplifyWith restart limit e).Completes e := by
  induction h with
  | const v => exact Run.completes_pure.2 rfl
  | var x => exact Run.completes_pure.2 rfl
  | unary _ hfold ih =>
      rw [Expr.simplifyWith]
      exact Run.completes_bind.2 ⟨_, ih hself, Run.completes_pure.2 hfold⟩
  | swept hs =>
      obtain ⟨n, hn⟩ : ∃ n, limit.toNat = n + 1 := ⟨limit.toNat - 1, by omega⟩
      rw [Expr.simplifyWith, hn, iterate]
      refine Run.completes_bind.2 ⟨_, Run.completes_lift.2 hs, ?_⟩
      simp only [unchanged_eq_beq hself, beq_self hself, Bool.or_true, if_true]
      exact Run.completes_bind.2 ⟨(), Run.completes_emit.2 rfl, Run.completes_pure.2 rfl⟩
  | equation _ _ iha ihb =>
      rw [Expr.simplifyWith]
      exact Run.completes_bind.2 ⟨_, iha hself.1,
        Run.completes_bind.2 ⟨_, ihb hself.2, Run.completes_pure.2 rfl⟩⟩

theorem Normal.simplify {limit : Int} (hlimit : 1 ≤ limit) {e : Expr α} (h : Normal e)
    (hself : e.EveryConst fun v => (v == v) = true) : (Expr.simplify limit e).Completes e :=
  h.simplifyWith hlimit hself

end Expr

end EquationEngine
