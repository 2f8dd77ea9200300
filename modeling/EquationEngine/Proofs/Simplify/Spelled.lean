import EquationEngine.Expr.Eval
import EquationEngine.Proofs.Double.Parts
import EquationEngine.Proofs.Expr.Printer
import EquationEngine.Proofs.Polynomial

/-!
Values and folding of what a tree spells.

The text of a tree may spell another tree: negative constants come back as negations. This makes no
difference to its value, and none to folding either, unless an operator over one operand is left.
So if a normal tree spells a polynomial, the first sweep over that already leads back to the tree.
-/

namespace EquationEngine

open Arithmetic

namespace Expr

/-! Values. -/

theorem eval_apply (env : Assignment Float) (op : UnaryOp) (e : Expr Float) :
    eval env (apply op e) = eval env e >>= op.apply := by
  fun_induction apply op e with
  | case1 e =>
      rw [eval]
      cases eval env e with
      | error err => rfl
      | ok v =>
          show Except.ok v = .ok (- -v)
          rw [Double.neg_neg]
  | case2 e ih =>
      rw [ih, eval]
      cases eval env e with
      | error err => rfl
      | ok v =>
          show Except.ok v.abs = .ok (-v).abs
          rw [Double.abs_neg]
  | case3 => rw [eval]

/-- A constant has the value of its size under its sign. -/
theorem eval_sign (env : Assignment Float) (v : Float) :
    eval env (if isSigned v then unary .neg (const (-v)) else const v) = .ok v := by
  split
  · show Except.ok (- -v) = .ok v
    rw [Double.neg_neg]
  · rfl

/-- A tree has the value of what it spells. -/
theorem eval_spelled (env : Assignment Float) (e : Expr Float) :
    eval env (spelled e) = eval env e := by
  induction e with
  | const v => rw [spelled, eval_sign, eval]
  | unary op e ih => rw [spelled, eval_apply, ih, eval]
  | binary op a b iha ihb => rw [spelled, eval, iha, ihb, eval]
  | polynomial x e ih => rw [spelled, ih, eval]
  | var x | nary op es | equation r a b => rfl

/-! Folding. -/

section Folding

variable {α : Type} [Arithmetic α]

/-- A node that is no operator over one operand and no mark. -/
def Bare : Expr α → Prop
  | unary .. | polynomial .. => False
  | _ => True

/-- A tree of polynomial shape has no operators over one operand. -/
theorem bare_of_shapeFrom {e : Expr α} {seen r : Option String} (h : shapeFrom seen e = some r) :
    EveryNode Bare e := by
  obtain ⟨x, hshape⟩ := exists_polynomialIn_of_shapeFrom h
  clear h
  induction hshape with
  | const _ | var | power _ => simp [Bare]
  | binary _ _ _ iha ihb => exact everyNode_binary.2 ⟨trivial, iha, ihb⟩

/-- What folding makes of a tree that is no operator over one operand. -/
theorem foldConstants_cases {e r : Expr α} (hbare : Bare e) (he : e.Settled)
    (hr : foldConstants e = .ok r) :
    (∃ u, r = number u) ∨ constValue? r = none ∧ ∀ t, r ≠ unary .neg t := by
  cases e with
  | const v =>
      obtain ⟨u, rfl⟩ := he
      cases hr
      exact .inl ⟨u, rfl⟩
  | unary op e => exact hbare.elim
  | binary op a b =>
      obtain ⟨a', -, hr⟩ := bind_eq_ok.1 hr
      obtain ⟨b', -, hr⟩ := bind_eq_ok.1 hr
      unfold foldBinary at hr
      split at hr
      · split_ifs at hr
        · cases hr
          exact .inr ⟨rfl, by simp⟩
        · split at hr
          · cases hr
            exact .inl ⟨_, rfl⟩
          · split_ifs at hr
            cases hr
            exact .inr ⟨rfl, by simp⟩
      · cases hr
        exact .inr ⟨rfl, by simp⟩
  | polynomial x e => exact hbare.elim
  | var x | nary op es | equation r a b =>
      cases hr
      exact .inr ⟨rfl, by simp⟩

/-- No tree spells a negation of a negation. -/
theorem spelled_ne_neg_neg (e t : Expr α) : spelled e ≠ unary .neg (unary .neg t) := by
  induction e generalizing t with
  | const v =>
      rw [spelled]
      split <;> simp
  | unary op e ih =>
      rw [spelled]
      by_cases hneg : ∃ s, spelled e = unary .neg s
      · obtain ⟨s, hs⟩ := hneg
        rw [hs]
        by_cases hop : op = .neg
        · subst hop
          rintro rfl
          exact ih _ hs
        · obtain ⟨u, hu⟩ := exists_apply hop (unary .neg s)
          rw [hu]
          rintro ⟨⟩
          exact hop rfl
      · rw [apply_of_ne_neg fun s hs => hneg ⟨s, hs⟩]
        intro h
        injection h with _ h
        exact hneg ⟨t, h⟩
  | polynomial x e ih => exact ih t
  | binary op a b | var x | nary op es | equation r a b => simp [spelled]

theorem settled_spelled {e : Expr α} (he : EveryNode Readable e) (hset : e.Settled) :
    (spelled e).Settled := by
  induction e with
  | const v =>
      have hreads := he.root.reads
      rw [spelled]
      split
      · rename_i hsigned
        rw [if_pos hsigned] at hreads
        injection hreads with hreads
        exact ⟨_, hreads.symm⟩
      · exact hset
  | unary op e ih =>
      exact shape_settled.apply (show (unary op e).Settled from hset)
        (ih (everyNode_unary.1 he).2 hset)
  | binary op a b iha ihb =>
      obtain ⟨-, ha, hb⟩ := everyNode_binary.1 he
      exact ⟨iha ha hset.1, ihb hb hset.2⟩
  | var x => trivial
  | nary op es => exact he.root.elim
  | equation r a b => exact he.root.elim
  | polynomial x e => exact he.root.elim

end Folding

theorem foldUnary_neg_neg {e r : Expr Float} (hbare : Bare e) (he : e.Settled)
    (hr : foldConstants e = .ok r) : foldUnary .neg (foldUnary .neg r) = r := by
  obtain ⟨u, rfl⟩ | ⟨hopen, hne⟩ := foldConstants_cases hbare he hr
  · exact congrArg const (Double.settle_neg_settle_neg u)
  · have hneg : constValue? (unary .neg r) = none := by rw [constValue?, hopen, Option.map_none]
    rw [foldUnary_of_constValue hopen, apply_of_ne_neg hne, foldUnary_of_constValue hneg, apply]

/-- Folding does not tell a tree from what it spells, if that has no operators over one operand
but possibly a negation at its root. -/
structure FoldsAlike (e : Expr Float) : Prop where
  bare : EveryNode Bare (spelled e) → foldConstants (spelled e) = foldConstants e
  negated : ∀ t, spelled e = unary .neg t → EveryNode Bare t →
    foldConstants e = foldConstants (unary .neg t)

theorem foldsAlike_const {v : Float} (hset : (const v).Settled) : FoldsAlike (const v) := by
  by_cases hsigned : isSigned v
  · have hspelled : spelled (const v) = unary .neg (const (-v)) := by rw [spelled, if_pos hsigned]
    refine ⟨fun hbare => ?_, ?_⟩
    · rw [hspelled] at hbare
      exact hbare.root.elim
    · rw [hspelled]
      rintro t ⟨⟩ -
      obtain ⟨u, rfl⟩ := hset
      show Except.ok (const (settle u)) = .ok (const (settle (- -settle u)))
      rw [Double.neg_neg, Double.settle_settle]
  · have hspelled : spelled (const v) = const v := by rw [spelled, if_neg hsigned]
    refine ⟨fun _ => by rw [hspelled], fun t ht => ?_⟩
    rw [hspelled] at ht
    cases ht

/-- A negation cancels with the one that is spelled below it. -/
theorem FoldsAlike.neg_of_neg {e s : Expr Float} (h : FoldsAlike e)
    (hs : spelled e = .unary .neg s) (hset : (spelled e).Settled) :
    FoldsAlike (.unary .neg e) := by
  have hcancel : spelled (.unary .neg e) = s := by rw [spelled, hs, Expr.apply]
  rw [hs] at hset
  constructor
  case bare =>
    rw [hcancel]
    intro hbare
    show foldConstants s = foldConstants e >>= _
    rw [h.negated s hs hbare, foldConstants]
    cases hr : foldConstants s with
    | error err => rfl
    | ok r => exact congrArg Except.ok (foldUnary_neg_neg hbare.root hset hr).symm
  case negated =>
    intro t ht
    have hnested : spelled e = .unary .neg (.unary .neg t) := by rw [hs, ← hcancel, ht]
    exact absurd hnested (spelled_ne_neg_neg e t)

/-- An operator that stays in what is spelled is taken off only if it is a negation. -/
theorem FoldsAlike.unary {op : UnaryOp} {e t : Expr Float} (h : FoldsAlike e)
    (ht : spelled (.unary op e) = .unary op t) (hbelow : op = .neg → t = spelled e) :
    FoldsAlike (.unary op e) := by
  constructor
  case bare =>
    rw [ht]
    exact fun hbare => hbare.root.elim
  case negated =>
    rw [ht]
    rintro t ⟨⟩ hbare
    rw [hbelow rfl] at hbare ⊢
    rw [foldConstants, foldConstants, h.bare hbare]

theorem FoldsAlike.binary {op : BinaryOp} {a b : Expr Float} (ha : FoldsAlike a)
    (hb : FoldsAlike b) : FoldsAlike (.binary op a b) := by
  refine ⟨fun hbare => ?_, by simp [spelled]⟩
  obtain ⟨-, hbarea, hbareb⟩ := everyNode_binary.1 hbare
  rw [spelled, foldConstants, ha.bare hbarea, hb.bare hbareb, foldConstants]

theorem foldConstants_spelled {e : Expr Float} (he : EveryNode Readable e) (hset : e.Settled) :
    FoldsAlike e := by
  induction e with
  | const v => exact foldsAlike_const hset
  | var x => exact ⟨fun _ => rfl, by simp [spelled]⟩
  | unary op e ih =>
      have hbody := (everyNode_unary.1 he).2
      have hbelow := ih hbody hset
      by_cases hop : op = .neg
      · subst hop
        by_cases hneg : ∃ s, spelled e = .unary .neg s
        · obtain ⟨s, hs⟩ := hneg
          exact hbelow.neg_of_neg hs (settled_spelled hbody hset)
        · exact hbelow.unary (apply_of_ne_neg fun s hs => hneg ⟨s, hs⟩) fun _ => rfl
      · obtain ⟨t, ht⟩ := exists_apply hop (spelled e)
        exact hbelow.unary ht fun h => absurd h hop
  | binary op a b iha ihb =>
      obtain ⟨-, ha, hb⟩ := everyNode_binary.1 he
      exact (iha ha hset.1).binary (ihb hb hset.2)
  | nary op es => exact he.root.elim
  | equation r a b => exact he.root.elim
  | polynomial x e => exact he.root.elim

/-! Simplification. -/

section Sweeps

variable {α : Type} [Arithmetic α]

/-- A constant or a negation is behind every negation that is spelled. -/
theorem spelled_eq_neg {e t : Expr α} (he : Readable e) (h : spelled e = unary .neg t) :
    (∃ v, e = const v) ∨ ∃ s, e = unary .neg s := by
  cases e with
  | const v => exact .inl ⟨v, rfl⟩
  | unary op e =>
      by_cases hop : op = .neg
      · exact .inr ⟨e, by rw [hop]⟩
      · obtain ⟨u, hu⟩ := exists_apply hop (spelled e)
        rw [spelled, hu] at h
        cases h
        exact absurd rfl hop
  | polynomial x e => exact he.elim
  | var x | binary op a b | nary op es | equation r a b => cases h

/-- A normal tree with an operator over one operand at its root spells such a tree. -/
theorem Normal.spelled_unary {op : UnaryOp} {e : Expr α} (h : Normal (.unary op e))
    (he : Readable e) : ∃ t, spelled (.unary op e) = .unary op t := by
  by_cases hop : op = .neg
  · subst hop
    refine ⟨spelled e, apply_of_ne_neg fun s hs => ?_⟩
    obtain ⟨v, rfl⟩ | ⟨t, rfl⟩ := spelled_eq_neg he hs
    · cases h with
      | unary _ hfold => cases hfold
    · exact h.ne_neg t rfl
  · exact exists_apply hop (spelled e)

end Sweeps

/-- If a normal tree spells a polynomial, simplification leads from there back to the tree, unless
no sweep is allowed at all. -/
theorem simplify_spelled {limit : Int} {e : Expr Float} (hnormal : Normal e)
    (he : EveryNode Readable e) (hset : e.Settled)
    (hself : e.EveryConst fun v => (v == v) = true) {x : String}
    (hx : polynomialVariable? (spelled e) = some x) :
    (simplify limit (spelled e)).outcome = .ok e ∨
      (simplify limit (spelled e)).outcome = .ok (spelled e) := by
  have hshape : shapeFrom none (spelled e) = some (some x) := Option.join_eq_some_iff.1 hx
  have hbare := bare_of_shapeFrom hshape
  cases hnormal with
  | const v =>
      rw [spelled] at hshape
      split at hshape
      · cases hshape
      · rw [shapeFrom] at hshape
        split at hshape <;> cases hshape
  | var x => exact .inl rfl
  | unary h hfold =>
      obtain ⟨t, ht⟩ := (Normal.unary h hfold).spelled_unary (everyNode_unary.1 he).2.root
      rw [ht] at hbare
      exact hbare.root.elim
  | @swept op a b hswept =>
      have hsweep := (sweep_congr ((foldConstants_spelled he hset).bare hbare)).trans hswept
      show (iterate _ limit limit.toNat 0 (spelled (binary op a b))).outcome = _ ∨
        (iterate _ limit limit.toNat 0 (spelled (binary op a b))).outcome = _
      cases limit.toNat with
      | zero => exact .inr rfl
      | succ n =>
          left
          rw [iterate, Run.outcome_bind_of_ok (b := .swept (binary op a b)) hsweep]
          dsimp only
          split_ifs with hsame hbinary
          · rfl
          · exact iterate_of_swept n 1 hself hswept
          · exact absurd rfl hbinary
  | equation _ _ => exact he.root.elim

end Expr

end EquationEngine
