import EquationEngine.Proofs.Double.Settled
import EquationEngine.Proofs.Expr.Nodes

/-!
Constant folding leaves nothing to fold.

A node is at rest if folding gives it back as soon as its operands are folded. Folding ends in a
tree of such nodes, because it puts every node together from folded operands; and a tree of such
nodes is given back. What is at rest over constant operands has no value: it is a division or a
remainder by zero, or a power that has no real value or one out of range.
-/

namespace EquationEngine.Expr

open Arithmetic

variable {α : Type} [Arithmetic α]

/-- A node that folding gives back over operands that it gives back. -/
def AtRest : Expr α → Prop
  | const _ | var _ => True
  | unary op e => foldUnary op e = unary op e
  | binary op a b => foldBinary op a b = .ok (binary op a b)
  | nary .. | equation .. | polynomial .. => False

/-- A node over operands of which at least one is not constant, or without a value. -/
def NothingToFold : Expr α → Prop
  | const _ | var _ => True
  | unary op e => op = .neg ∨ op = .abs → constValue? e = none
  | binary op a b => ∀ x y, constValue? a = some x → constValue? b = some y →
      (op = .div ∨ op = .mod) ∧ isZero y = true ∨
        op = .pow ∧ ∃ err, op.apply x y = .error err ∧
          (err.family = .domain ∨ err.family = .overflow)
  | nary .. | equation .. | polynomial .. => False

/-! One node. -/

theorem foldUnary_of_open {op : UnaryOp} {e : Expr α}
    (h : op = .neg ∨ op = .abs → constValue? e = none) : foldUnary op e = apply op e := by
  cases op with
  | neg => exact foldUnary_of_constValue (h (.inl rfl))
  | abs => exact foldUnary_of_constValue (h (.inr rfl))
  | log | exp => rfl

theorem foldUnary_cases (op : UnaryOp) (e : Expr α) :
    (∃ v, foldUnary op e = number v) ∨ (op = .neg ∨ op = .abs → constValue? e = none) := by
  cases hvalue : constValue? e with
  | none => exact .inr fun _ => rfl
  | some v =>
      cases op with
      | neg | abs =>
          rw [foldUnary, hvalue]
          exact .inl ⟨_, rfl⟩
      | log | exp => exact .inr (by simp)

theorem foldBinary_cases {op : BinaryOp} {a b r : Expr α} (h : foldBinary op a b = .ok r) :
    r = binary op a b ∨ ∃ v, r = number v := by
  unfold foldBinary at h
  split at h
  · split_ifs at h
    · exact .inl (Except.ok.inj h).symm
    · split at h
      · exact .inr ⟨_, (Except.ok.inj h).symm⟩
      · split_ifs at h
        exact .inl (Except.ok.inj h).symm
  · exact .inl (Except.ok.inj h).symm

/-- An operation on two constants that is left as it stands has no value. -/
theorem apply_of_foldBinary_self {op : BinaryOp} {a b : Expr α} {x y : α}
    (h : foldBinary op a b = .ok (binary op a b)) (ha : constValue? a = some x)
    (hb : constValue? b = some y) :
    (op = .div ∨ op = .mod) ∧ isZero y = true ∨
      ∃ err, op.apply x y = .error err ∧ keepsPower err = true := by
  simp only [foldBinary, ha, hb] at h
  split_ifs at h with hzero
  · simp only [Bool.and_eq_true, Bool.or_eq_true, beq_iff_eq] at hzero
    exact .inl hzero
  · cases happly : op.apply x y with
    | ok v =>
        rw [happly] at h
        cases h
    | error err =>
        simp only [happly] at h
        split_ifs at h with hkeeps
        exact .inr ⟨err, rfl, hkeeps⟩

/-- The errors that are kept are those of powers. -/
theorem family_of_keepsPower {op : BinaryOp} {x y : α} {err : Error}
    (h : op.apply x y = .error err) (hkeeps : keepsPower err = true) :
    op = .pow ∧ (err.family = .domain ∨ err.family = .overflow) := by
  cases op with
  | add | sub | mul => cases h
  | div =>
      rw [BinaryOp.apply] at h
      split_ifs at h
      cases h
      cases hkeeps
  | pow =>
      rw [BinaryOp.apply] at h
      split at h <;> cases h
      · exact ⟨rfl, .inl rfl⟩
      · exact ⟨rfl, .inr rfl⟩
  | mod =>
      rw [BinaryOp.apply] at h
      split_ifs at h
      · cases h
        cases hkeeps
      · split at h <;> cases h
        cases hkeeps

theorem AtRest.nothingToFold {n : Expr α} (h : AtRest n) : NothingToFold n := by
  cases n with
  | const v | var x => trivial
  | unary op e =>
      obtain ⟨v, hv⟩ | hopen := foldUnary_cases op e
      · have hfold : unary op e = number v := Eq.trans (Eq.symm h) hv
        cases hfold
      · exact hopen
  | binary op a b =>
      intro x y ha hb
      refine (apply_of_foldBinary_self h ha hb).imp id ?_
      rintro ⟨err, happly, hkeeps⟩
      obtain ⟨hpow, hfamily⟩ := family_of_keepsPower happly hkeeps
      exact ⟨hpow, err, happly, hfamily⟩
  | nary op es | equation r a b | polynomial x e => exact h

/-! Whole trees. -/

theorem atRest_number (v : α) : EveryNode AtRest (number v) := everyNode_const.2 trivial

/-- An operator stays over an operand that it does not combine with, and otherwise meets what stood
below that operand. -/
theorem atRest_apply {op : UnaryOp} {e : Expr α} (h : EveryNode AtRest e)
    (hopen : op = .neg ∨ op = .abs → constValue? e = none) : EveryNode AtRest (apply op e) := by
  fun_induction apply op e with
  | case1 e => exact (everyNode_unary.1 h).2
  | case2 e ih =>
      refine ih (everyNode_unary.1 h).2 fun _ => ?_
      simpa [constValue?] using hopen (.inr rfl)
  | case3 op e hneg habs =>
      refine everyNode_unary.2 ⟨?_, h⟩
      rw [AtRest, foldUnary_of_open hopen, apply]
      · exact hneg
      · exact habs

theorem atRest_foldUnary {op : UnaryOp} {e : Expr α} (h : EveryNode AtRest e) :
    EveryNode AtRest (foldUnary op e) := by
  obtain ⟨v, hv⟩ | hopen := foldUnary_cases op e
  · exact hv ▸ atRest_number v
  · exact foldUnary_of_open hopen ▸ atRest_apply h hopen

/-- Folding a tree without flat sums and products ends in a tree at rest. -/
theorem atRest_foldConstants {t r : Expr α}
    (ht : EveryNode (fun n => n.kind ≠ .nary ∧ n.kind ≠ .equation) t)
    (hr : foldConstants t = .ok r) : EveryNode AtRest r := by
  induction t generalizing r with
  | const v =>
      cases hr
      exact everyNode_const.2 trivial
  | var x =>
      cases hr
      exact everyNode_var.2 trivial
  | unary op e ih =>
      obtain ⟨e', he, hr⟩ := bind_eq_ok.1 hr
      cases hr
      exact atRest_foldUnary (ih (everyNode_unary.1 ht).2 he)
  | binary op a b iha ihb =>
      obtain ⟨-, hta, htb⟩ := everyNode_binary.1 ht
      obtain ⟨a', ha, hr⟩ := bind_eq_ok.1 hr
      obtain ⟨b', hb, hr⟩ := bind_eq_ok.1 hr
      obtain rfl | ⟨v, rfl⟩ := foldBinary_cases hr
      · exact everyNode_binary.2 ⟨hr, iha hta ha, ihb htb hb⟩
      · exact atRest_number v
  | polynomial x e ih => exact ih (everyNode_polynomial.1 ht).2 hr
  | nary op es => exact absurd rfl ht.root.1
  | equation rel a b => exact absurd rfl ht.root.2

/-- A tree at rest is given back. -/
theorem foldConstants_of_atRest {e : Expr α} (h : EveryNode AtRest e) :
    foldConstants e = .ok e := by
  induction e with
  | const v | var x => rfl
  | unary op e ih =>
      obtain ⟨hroot, he⟩ := everyNode_unary.1 h
      exact bind_eq_ok.2 ⟨e, ih he, congrArg Except.ok hroot⟩
  | binary op a b iha ihb =>
      obtain ⟨hroot, ha, hb⟩ := everyNode_binary.1 h
      exact bind_eq_ok.2 ⟨a, iha ha, bind_eq_ok.2 ⟨b, ihb hb, hroot⟩⟩
  | nary op es | equation rel a b | polynomial x e => exact h.root.elim

/-- Folding a tree without flat sums and products leaves no mark, no negation or absolute value of a
constant, and no operation on two constants but divisions and remainders by zero and powers without
a value. If no NaN came up, folding the result again gives an equal tree. -/
theorem foldConstants_complete {t r : Expr Float}
    (ht : ∀ n ∈ t.depthFirst, n.kind ≠ .nary ∧ n.kind ≠ .equation)
    (hr : foldConstants t = .ok r) :
    (∀ n ∈ r.depthFirst, NothingToFold n) ∧
      (r.EveryConst (fun v => v.isNaN = false) →
        ∃ r', foldConstants r = .ok r' ∧ (r' == r) = true) := by
  have hrest : EveryNode AtRest r := atRest_foldConstants ht hr
  refine ⟨fun n hn => (hrest n hn).nothingToFold, fun hnan => ?_⟩
  have hself : r.EveryConst fun v => (v == v) = true :=
    hnan.mono fun v hv => Double.beq_self_of_not_isNaN hv
  exact ⟨r, foldConstants_of_atRest hrest, beq_self hself⟩

set_option maxRecDepth 8000 in
/-- Folding `(2 + 3) * (-8) ^ 0.5`, marked as a polynomial, ends in `5 * (-8) ^ 0.5`: the power has
no real value and stays. -/
theorem foldConstants_complete_root :
    let t : Expr Float := polynomial "x" (binary .mul (binary .add (integer 2) (integer 3))
      (binary .pow (unary .neg (integer 8)) (const 0.5)))
    let r : Expr Float := binary .mul (integer 5) (binary .pow (integer (-8)) (const 0.5))
    foldConstants t = .ok r ∧ (∀ n ∈ r.depthFirst, NothingToFold n) ∧
      ∃ r', foldConstants r = .ok r' ∧ (r' == r) = true := by
  intro t r
  have ht : ∀ n ∈ t.depthFirst, n.kind ≠ .nary ∧ n.kind ≠ .equation := by
    simp [t, depthFirst, kind, integer, number]
  have hr : foldConstants t = .ok r := rfl
  have hfive : (settle (ofInt 5 : Float)).isNaN = false := by decide +kernel
  have height : (settle (ofInt (-8) : Float)).isNaN = false := by decide +kernel
  have hhalf : (0.5 : Float).isNaN = false := by decide +kernel
  have hnan : r.EveryConst fun v => v.isNaN = false := ⟨hfive, height, hhalf⟩
  obtain ⟨hnothing, hagain⟩ := foldConstants_complete ht hr
  exact ⟨hr, hnothing, hagain hnan⟩

end EquationEngine.Expr
