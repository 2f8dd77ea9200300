import EquationEngine.Proofs.Simplify.Divisions
import EquationEngine.Proofs.Simplify.Meaning
import EquationEngine.Proofs.Simplify.Normal

/-!
Rational trees in exact arithmetic, and what simplification makes of those without variables.

A closed rational tree that has a value is folded to that value. One that has none keeps a division
by the constant zero, and a sweep over it fails or removes a division. A sweep can therefore not
give a closed tree back unchanged, and the only closed trees on which a completed simplification
ends are constants.
-/

namespace EquationEngine

open Arithmetic

/-- Whether an operator is one of the four operations of a field. -/
def BinaryOp.isBasic : BinaryOp → Bool
  | add | sub | mul | div => true
  | pow | mod => false

namespace Expr

variable [Exact] {E : Set ℚ} {env : Assignment ℚ} {V : Set String}

/-- Trees of constants, variables from `V` and their squares, with negation and the four basic
operations. -/
inductive Plain (V : Set String) : Expr ℚ → Prop
  | const (c : ℚ) : Plain V (const c)
  | var {x : String} : x ∈ V → Plain V (var x)
  | neg {e : Expr ℚ} : Plain V e → Plain V (unary .neg e)
  | binary {op : BinaryOp} {a b : Expr ℚ} :
      op.isBasic = true → Plain V a → Plain V b → Plain V (binary op a b)
  | square {x : String} : x ∈ V → Plain V (binary .pow (var x) (const 2))

/-- The plain trees over some variables form a class that the passes keep. -/
theorem shape_plain : Shape (Plain V) where
  number v := by
    rw [Exact.number_eq]
    exact .const v
  neg h := .neg h
  add ha hb := .binary rfl ha hb
  sub ha hb := .binary rfl ha hb
  mul ha hb := .binary rfl ha hb
  square {x} h := by
    rw [Exact.integer_eq]
    cases h with
    | var hx => exact .square hx
  operand h := by
    cases h
    assumption
  under h h' := by
    cases h
    exact .neg h'
  left h := by
    cases h with
    | binary _ ha _ => exact ha
    | square hx => exact .var hx
  right h := by
    cases h with
    | binary _ _ hb => exact hb
    | square _ => exact .const 2
  again hop h ha hb := by
    cases h with
    | binary hbasic _ _ => exact .binary hbasic ha hb
    | square _ => exact absurd rfl hop
  power h := by
    cases h with
    | binary hbasic _ _ => cases hbasic
    | square _ => exact .inr ⟨_, 2, rfl, rfl⟩
  part h := by cases h
  side h := by cases h
  relate h := by cases h
  body h := by cases h

/-! Folding closed trees. -/

/-- What folding leaves of a closed tree without value: divisions by zero, and operators over
them. -/
inductive Stuck : Expr ℚ → Prop
  | zero (c : ℚ) : Stuck (binary .div (const c) (const 0))
  | neg {e : Expr ℚ} : Stuck e → Stuck (unary .neg e)
  | left {op : BinaryOp} {a : Expr ℚ} {c : ℚ} :
      op.isBasic = true → Stuck a → Stuck (binary op a (const c))
  | right {op : BinaryOp} {c : ℚ} {b : Expr ℚ} :
      op.isBasic = true → Stuck b → Stuck (binary op (const c) b)
  | both {op : BinaryOp} {a b : Expr ℚ} :
      op.isBasic = true → Stuck a → Stuck b → Stuck (binary op a b)

theorem Stuck.constValue {e : Expr ℚ} (h : Stuck e) : constValue? e = none := by
  induction h with
  | neg _ ih => rw [constValue?, ih, Option.map_none]
  | _ => rfl

omit [Exact] in
theorem Stuck.negate {e : Expr ℚ} (h : Stuck e) : Stuck (Expr.negate e) := by
  cases h with
  | neg h => exact h
  | zero c => exact .neg (.zero c)
  | left hop h => exact .neg (.left hop h)
  | right hop h => exact .neg (.right hop h)
  | both hop ha hb => exact .neg (.both hop ha hb)

/-- An operation on two constants has a constant value, or is a division by zero. -/
theorem foldBinary_const {op : BinaryOp} (hop : op.isBasic = true) (c d : ℚ) :
    (∃ v, foldBinary op (const c) (const d) = .ok (const v)) ∨
      foldBinary op (const c) (const d) = .ok (binary op (const c) (const d)) ∧
        op = .div ∧ d = 0 := by
  cases op with
  | div =>
      by_cases hd : d = 0
      · exact .inr ⟨by simp [foldBinary, constValue?, hd], rfl, hd⟩
      · exact .inl ⟨c / d, by simp [foldBinary, constValue?, hd, BinaryOp.apply]⟩
  | pow => cases hop
  | mod => cases hop
  | _ => exact .inl ⟨_, by simp [foldBinary, constValue?, BinaryOp.apply]; rfl⟩

/-- Folding a closed tree never fails; it ends in a constant or is stuck. -/
theorem Plain.fold {e : Expr ℚ} (h : Plain ∅ e) :
    ∃ f, foldConstants e = .ok f ∧ ((∃ c, f = .const c) ∨ Stuck f) := by
  induction h with
  | const c => exact ⟨_, rfl, .inl ⟨c, rfl⟩⟩
  | var hx => exact absurd hx (Set.notMem_empty _)
  | square hx => exact absurd hx (Set.notMem_empty _)
  | neg _ ih =>
      obtain ⟨f, hf, ⟨c, rfl⟩ | hstuck⟩ := ih
      · exact ⟨_, bind_eq_ok.2 ⟨_, hf, rfl⟩, .inl ⟨-c, Exact.number_eq _⟩⟩
      · refine ⟨_, bind_eq_ok.2 ⟨f, hf, rfl⟩, .inr ?_⟩
        rw [foldUnary_of_constValue hstuck.constValue]
        exact hstuck.negate
  | @binary op a b hop _ _ iha ihb =>
      obtain ⟨a', ha, hleft⟩ := iha
      obtain ⟨b', hb, hright⟩ := ihb
      have hfold {r : Expr ℚ} (hr : foldBinary op a' b' = .ok r) :
          foldConstants (.binary op a b) = .ok r :=
        bind_eq_ok.2 ⟨a', ha, bind_eq_ok.2 ⟨b', hb, hr⟩⟩
      obtain ⟨c, rfl⟩ | hleft := hleft
      · obtain ⟨d, rfl⟩ | hright := hright
        · obtain ⟨v, hv⟩ | ⟨hkept, rfl, rfl⟩ := foldBinary_const hop c d
          · exact ⟨_, hfold hv, .inl ⟨v, rfl⟩⟩
          · exact ⟨_, hfold hkept, .inr (.zero c)⟩
        · have hkept : foldBinary op (.const c) b' = .ok (.binary op (.const c) b') := by
            simp [foldBinary, hright.constValue]
          exact ⟨_, hfold hkept, .inr (.right hop hright)⟩
      · have hkept : foldBinary op a' b' = .ok (.binary op a' b') := by
          simp [foldBinary, hleft.constValue]
        obtain ⟨d, rfl⟩ | hright := hright
        · exact ⟨_, hfold hkept, .inr (.left hop hleft)⟩
        · exact ⟨_, hfold hkept, .inr (.both hop hleft hright)⟩

theorem Stuck.not_denotes {e : Expr ℚ} (h : Stuck e) (v : ℚ) : ¬Denotes E env e v := by
  intro hv
  induction h generalizing v with
  | zero c =>
      obtain ⟨_, _, _, ⟨⟩, hzero, _⟩ := Denotes.div_iff.1 hv
      exact hzero rfl
  | neg _ ih => exact ih _ (Denotes.neg_iff.1 hv)
  | left _ _ ih =>
      obtain ⟨x, _, _, ha, _⟩ := Denotes.binary_iff.1 hv
      exact ih x ha
  | right _ _ ih =>
      obtain ⟨_, y, _, _, hb, _⟩ := Denotes.binary_iff.1 hv
      exact ih y hb
  | both _ _ _ ih _ =>
      obtain ⟨x, _, _, ha, _⟩ := Denotes.binary_iff.1 hv
      exact ih x ha

/-- A closed tree that has a value is folded to it. -/
theorem Plain.fold_eq {e : Expr ℚ} (h : Plain ∅ e) {v : ℚ} (hv : Denotes E env e v) :
    foldConstants e = .ok (.const v) := by
  obtain ⟨f, hf, hform⟩ := h.fold
  obtain ⟨r, hr, hv⟩ := hv.foldConstants
  obtain rfl := Except.ok.inj (hf.symm.trans hr)
  obtain ⟨c, rfl⟩ | hstuck := hform
  · rw [hf, Denotes.const_iff.1 hv]
  · exact absurd hv (hstuck.not_denotes v)

/-! Stuck trees do not survive a sweep as they are. -/

/-- Identity elimination ends in an error. -/
def Fails (e : Expr ℚ) : Prop := ∀ r, dropIdentities e ≠ .ok r

theorem fails_unary {op : UnaryOp} {e : Expr ℚ} : Fails (unary op e) ↔ Fails e := by
  constructor
  · intro h r hr
    exact h _ (bind_eq_ok.2 ⟨r, hr, rfl⟩)
  · intro h r hr
    obtain ⟨e', he, _⟩ := bind_eq_ok.1 hr
    exact h e' he

theorem fails_apply {op : UnaryOp} {e : Expr ℚ} : Fails (apply op e) ↔ Fails e := by
  fun_induction apply op e with
  | case1 e => exact fails_unary.symm
  | case2 e ih => exact ih.trans fails_unary.symm
  | case3 op e => exact fails_unary

theorem Fails.left {op : BinaryOp} {a b : Expr ℚ} (h : Fails a) : Fails (binary op a b) := by
  intro r hr
  obtain ⟨a', ha, _⟩ := bind_eq_ok.1 hr
  exact h a' ha

theorem Fails.right {op : BinaryOp} {a b : Expr ℚ} (h : Fails b) : Fails (binary op a b) := by
  intro r hr
  obtain ⟨a', _, hr⟩ := bind_eq_ok.1 hr
  obtain ⟨b', hb, _⟩ := bind_eq_ok.1 hr
  exact h b' hb

theorem fails_div_zero (c : ℚ) : Fails (binary .div (const c) (const 0)) := by
  intro r hr
  have hzero : isInt 0 (const (0 : ℚ)) = true := rfl
  simp [dropIdentities, dropAtRoot, dropInQuotient, hzero, bind, Except.bind] at hr

theorem Stuck.fails {e : Expr ℚ} (h : Stuck e) : Fails e := by
  induction h with
  | zero c => exact fails_div_zero c
  | neg _ ih => exact fails_unary.2 ih
  | left _ _ ih => exact ih.left
  | right _ _ ih => exact ih.right
  | both _ _ _ ih _ => exact ih.left

omit [Exact] in
theorem Stuck.divisions_pos {e : Expr ℚ} (h : Stuck e) : 0 < divisions e := by
  induction h with
  | zero c => exact Nat.one_pos
  | neg _ ih => exact ih
  | left _ _ ih => exact ih.trans_le (divisions_left_le _ _ _)
  | right _ _ ih => exact ih.trans_le (divisions_right_le _ _ _)
  | both _ _ _ ih _ => exact ih.trans_le (divisions_left_le _ _ _)

omit [Exact] in
theorem Stuck.isBasic {op : BinaryOp} {a b : Expr ℚ} (h : Stuck (binary op a b)) :
    op.isBasic = true := by
  cases h with
  | zero c => rfl
  | left hop _ => exact hop
  | right hop _ => exact hop
  | both hop _ _ => exact hop

omit [Exact] in
/-- Beside a constant on the left, the right operand of a stuck operator is stuck or a zero
divisor. -/
theorem Stuck.of_const_left {op : BinaryOp} {c : ℚ} {b : Expr ℚ}
    (h : Stuck (binary op (.const c) b)) : Stuck b ∨ op = .div ∧ b = .const 0 := by
  cases h with
  | zero c => exact .inr ⟨rfl, rfl⟩
  | left _ h => cases h
  | right _ h => exact .inl h
  | both _ h _ => cases h

omit [Exact] in
theorem Stuck.of_const_right {op : BinaryOp} {a : Expr ℚ} {c : ℚ}
    (h : Stuck (binary op a (.const c))) : Stuck a ∨ ∃ d, a = .const d := by
  cases h with
  | zero d => exact .inr ⟨d, rfl⟩
  | left _ h => exact .inl h
  | right _ h => cases h
  | both _ _ h => cases h

omit [Exact] in
theorem Stuck.left_or_right {op : BinaryOp} {a b : Expr ℚ} (h : Stuck (binary op a b))
    (hop : op ≠ .div) : Stuck a ∨ Stuck b := by
  cases h with
  | zero c => exact absurd rfl hop
  | left _ h => exact .inl h
  | right _ h => exact .inr h
  | both _ h _ => exact .inl h

theorem Stuck.leading {e : Expr ℚ} (h : Stuck e) : Stuck (Expr.leading .minus e) := by
  cases e with
  | const c => cases h
  | _ => exact h.negate

/-- Negating the left operand keeps an operator stuck. -/
theorem Stuck.negate_left {op op' : BinaryOp} {a b : Expr ℚ} (h : Stuck (binary op a b))
    (hop : op'.isBasic = true) (hdiv : op = .div → op' = .div) :
    Stuck (binary op' (Expr.leading .minus a) b) := by
  cases h with
  | zero c =>
      rw [hdiv rfl, Expr.leading, Exact.number_eq]
      exact .zero (-c)
  | left _ h => exact .left hop h.leading
  | right _ h =>
      rw [Expr.leading, Exact.number_eq]
      exact .right hop h
  | both _ ha hb => exact .both hop ha.leading hb

theorem Stuck.flattenable {e r : Expr ℚ} (h : Stuck e) (hr : flattenable? e = some r) :
    Stuck r := by
  obtain ⟨op, a, b, rfl, hform⟩ | ⟨op, a, b, rfl, rfl⟩ := flattenable?_cases hr
  · cases h with
    | neg h =>
        obtain ⟨rfl, rfl⟩ | ⟨rfl, rfl⟩ | ⟨rfl, rfl⟩ | ⟨rfl, rfl⟩ := hform
        · exact h.negate_left rfl (by simp)
        · exact h.negate_left rfl (by simp)
        · exact h.negate_left rfl (by simp)
        · exact h.negate_left rfl (by simp)
  · exact h

/-- The result of a rule on a stuck tree still fails, or holds no division at all. -/
def Spent (e : Expr ℚ) : Prop := Fails e ∨ divisions e = 0

theorem Fails.scaled {e : Expr ℚ} (h : Fails e) (k : ℚ) : Spent (Expr.scaled k e) := by
  unfold Expr.scaled
  split_ifs
  · exact .inr rfl
  · exact .inl h
  · exact .inl h.right

theorem Fails.shared {e : Expr ℚ} (h : Fails e) (k : ℚ) : Spent (Expr.shared k e) := by
  unfold Expr.shared
  split_ifs
  · exact .inr rfl
  · exact .inl h.right

theorem Fails.offset {e : Expr ℚ} (h : Fails e) (k : ℚ) : Fails (Expr.offset e k) := by
  unfold Expr.offset
  split_ifs
  · exact h
  · exact h.left
  · exact h.left

theorem Fails.negate {e : Expr ℚ} (h : Fails e) : Fails (Expr.negate e) := fails_apply.2 h

theorem Fails.timesConst {e : Expr ℚ} (h : Fails e) (k : ℚ) : Fails (Expr.timesConst k e) := by
  unfold Expr.timesConst
  split
  · exact absurd rfl (h _)
  · exact h.right

theorem Fails.overConst {e : Expr ℚ} (h : Fails e) (k : ℚ) : Fails (Expr.overConst k e) := by
  unfold Expr.overConst
  split
  · exact absurd rfl (h _)
  · exact h.left

theorem Stuck.addInto {minus : Bool} {a b r : Expr ℚ} {k : ℚ}
    (hr : Expr.addInto minus a b k = some r)
    (h : Stuck (binary (sumOp minus) a b)) : Fails r := by
  unfold Expr.addInto at hr
  split at hr
  · obtain hb | ⟨hop, _⟩ := h.of_const_left
    · have hfail := hb.fails
      cases minus <;> simp only [Bool.false_eq_true, if_true, if_false] at hr <;>
        split at hr <;> cases hr
      · exact hfail
      · exact hfail.right
      · exact hfail.negate
      · exact hfail.right
    · cases minus <;> cases hop
  · rename_i hopen
    cases hr
    obtain ha | ⟨d, rfl⟩ := h.of_const_right
    · exact ha.fails.offset _
    · exact absurd rfl (hopen d)
  · cases hr

theorem Stuck.subtractFrom {minus : Bool} {a b r : Expr ℚ} {k : ℚ}
    (hr : Expr.subtractFrom minus a b k = some r)
    (h : Stuck (binary (sumOp minus) a b)) : Fails r := by
  unfold Expr.subtractFrom at hr
  split at hr
  · obtain hb | ⟨hop, _⟩ := h.of_const_left
    · have hrest : Fails (if minus then Expr.negate b else b) := by
        split
        · exact hb.fails.negate
        · exact hb.fails
      generalize (if minus then Expr.negate b else b) = rest at hr hrest
      dsimp only at hr
      split_ifs at hr <;> cases hr
      · exact hrest
      · exact hrest.right
      · exact hrest.left
    · cases minus <;> cases hop
  · rename_i hopen
    cases hr
    obtain ha | ⟨d, rfl⟩ := h.of_const_right
    · exact ha.fails.offset _
    · exact absurd rfl (hopen d)
  · cases hr

theorem Stuck.subtractSum {minus : Bool} {a b r : Expr ℚ} {k : ℚ}
    (hr : Expr.subtractSum k minus a b = some r)
    (h : Stuck (binary (sumOp minus) a b)) : Fails r := by
  unfold Expr.subtractSum at hr
  split at hr
  · obtain hb | ⟨hop, _⟩ := h.of_const_left
    · have hfail := hb.fails
      cases minus <;> simp only [Bool.false_eq_true, if_true, if_false] at hr <;>
        split at hr <;> cases hr
      · exact hfail.negate
      · exact hfail.right
      · exact hfail
      · exact hfail.right
    · cases minus <;> cases hop
  · rename_i hopen
    obtain ha | ⟨d, rfl⟩ := h.of_const_right
    · dsimp only at hr
      generalize (if minus then k + _ else k - _) = value at hr
      split at hr <;> cases hr
      · exact ha.fails.negate
      · exact ha.fails.right
    · exact absurd rfl (hopen d)
  · cases hr

theorem spent_shared_zero (k : ℚ) : Spent (shared k (const 0)) := by
  unfold shared
  split_ifs
  · exact .inr rfl
  · rw [Exact.number_eq]
    exact .inl (fails_div_zero k)

theorem spent_scaled_zero (k : ℚ) : Spent (scaled k (const 0)) := by
  unfold scaled
  split_ifs <;> exact .inr rfl

theorem Stuck.scaleProduct {quotient : Bool} {a b r : Expr ℚ} {k : ℚ}
    (hr : Expr.scaleProduct quotient a b k = .ok (some r))
    (h : Stuck (binary (productOp quotient) a b)) : Spent r := by
  unfold Expr.scaleProduct at hr
  split at hr
  · obtain hb | ⟨hop, rfl⟩ := h.of_const_left
    · cases quotient <;> cases hr
      · exact hb.fails.scaled _
      · exact hb.fails.shared _
    · cases quotient <;> cases hop
      cases hr
      exact spent_shared_zero _
  · rename_i hopen
    obtain ha | ⟨d, rfl⟩ := h.of_const_right
    · cases quotient
      · cases hr
        exact ha.fails.scaled _
      · simp only [if_true] at hr
        split at hr <;> cases hr
        exact ha.fails.scaled _
    · exact absurd rfl (hopen d)
  · cases hr

theorem Stuck.divideProduct {quotient : Bool} {a b r : Expr ℚ} {k : ℚ}
    (hr : Expr.divideProduct quotient a b k = .ok (some r))
    (h : Stuck (binary (productOp quotient) a b)) : Spent r := by
  unfold Expr.divideProduct at hr
  split at hr
  · split at hr
    · cases hr
    · obtain hb | ⟨hop, rfl⟩ := h.of_const_left
      · cases quotient <;> cases hr
        · exact hb.fails.scaled _
        · exact hb.fails.shared _
      · cases quotient <;> cases hop
        cases hr
        exact spent_shared_zero _
  · rename_i hopen
    obtain ha | ⟨d, rfl⟩ := h.of_const_right
    · cases quotient
      · simp only [Bool.false_eq_true, if_false] at hr
        split at hr <;> cases hr
        exact ha.fails.scaled _
      · simp only [if_true] at hr
        split_ifs at hr <;> cases hr
        · exact .inl ha.fails
        · exact .inl ha.fails.left
    · exact absurd rfl (hopen d)
  · cases hr

theorem Stuck.divideByProduct {quotient : Bool} {a b r : Expr ℚ} {k : ℚ}
    (hr : Expr.divideByProduct k quotient a b = .ok (some r))
    (h : Stuck (binary (productOp quotient) a b)) : Spent r := by
  unfold Expr.divideByProduct at hr
  split at hr
  · split at hr
    · cases hr
    · obtain hb | ⟨hop, rfl⟩ := h.of_const_left
      · cases quotient <;> cases hr
        · exact hb.fails.shared _
        · exact hb.fails.scaled _
      · cases quotient <;> cases hop
        cases hr
        exact spent_scaled_zero _
  · rename_i hopen
    obtain ha | ⟨d, rfl⟩ := h.of_const_right
    · split at hr <;> cases hr
      exact ha.fails.shared _
    · exact absurd rfl (hopen d)
  · cases hr

theorem Stuck.distributeFactor {op : BinaryOp} {a b : Expr ℚ} (h : Stuck (binary op a b))
    (hop : op ≠ .div) (k : ℚ) : Spent (Expr.distributeFactor op a b k) := by
  unfold Expr.distributeFactor
  split
  · exact .inr rfl
  · obtain ha | hb := h.left_or_right hop
    · exact .inl (ha.fails.timesConst k).left
    · exact .inl (hb.fails.timesConst k).right

theorem Stuck.distributeDivisor {op : BinaryOp} {a b r : Expr ℚ} (h : Stuck (binary op a b))
    (hop : op ≠ .div) {k : ℚ} (hr : Expr.distributeDivisor op a b k = .ok r) : Spent r := by
  unfold Expr.distributeDivisor at hr
  split at hr <;> cases hr
  obtain ha | hb := h.left_or_right hop
  · exact .inl (ha.fails.overConst k).left
  · exact .inl (hb.fails.overConst k).right

theorem Stuck.reassociate {op : BinaryOp} {left right r : Expr ℚ}
    (h : Stuck (binary op left right)) (hr : Expr.reassociate op left right = .ok (some r)) :
    Spent r := by
  have hleft {c : ℚ} (hc : right = .const c) (hne : ∀ d, left ≠ .const d) : Stuck left := by
    subst hc
    exact h.of_const_right.resolve_right fun ⟨d, hd⟩ => hne d hd
  have hright {c : ℚ} (hc : left = .const c) (hne : right ≠ .const 0) : Stuck right := by
    subst hc
    exact h.of_const_left.resolve_right fun hzero => hne hzero.2
  have hrule := reassociation op left right
  generalize Expr.reassociate op left right = o at hr hrule
  cases hrule with
  | addInto => exact .inl (Stuck.addInto (Except.ok.inj hr) (hleft rfl (by simp)))
  | addIntoRight => exact .inl (Stuck.addInto (Except.ok.inj hr) (hright rfl (by simp)))
  | subtractFrom => exact .inl (Stuck.subtractFrom (Except.ok.inj hr) (hleft rfl (by simp)))
  | subtractSum => exact .inl (Stuck.subtractSum (Except.ok.inj hr) (hright rfl (by simp)))
  | scaleProduct => exact Stuck.scaleProduct hr (hleft rfl (by simp))
  | scaleProductRight => exact Stuck.scaleProduct hr (hright rfl (by simp))
  | distributeFactor minus =>
      cases hr
      exact (hleft rfl (by simp)).distributeFactor (sumOp_undivided minus).1 _
  | distributeFactorRight minus =>
      cases hr
      exact (hright rfl (by simp)).distributeFactor (sumOp_undivided minus).1 _
  | divideProduct => exact Stuck.divideProduct hr (hleft rfl (by simp))
  | divideByProduct => exact Stuck.divideByProduct hr (hright rfl (by simp))
  | distributeDivisor minus =>
      obtain ⟨e, he, hr⟩ := bind_eq_ok.1 hr
      cases hr
      exact (hleft rfl (by simp)).distributeDivisor (sumOp_undivided minus).1 he
  | none => cases hr

theorem Stuck.addFractions {op : BinaryOp} {a b r : Expr ℚ} (ha : Stuck a) (hb : Stuck b)
    (hr : addFractions? op a b = some r) : Fails r := by
  unfold addFractions? at hr
  split at hr
  · rename_i n d n' d'
    -- a denominator that is no constant is stuck, and it is kept
    have hden {n d : Expr ℚ} (h : Stuck (binary .div n d)) (hd : constValue? d = none) :
        Stuck d := by
      cases h with
      | right _ h => exact h
      | both _ _ h => exact h
      | zero c => cases hd
      | left _ _ => cases hd
    have hone : Stuck d ∨ Stuck d' := by
      cases hd : constValue? d with
      | none => exact .inl (hden ha hd)
      | some x =>
          cases hd' : constValue? d' with
          | none => exact .inr (hden hb hd')
          | some y => simp [hd, hd'] at hr
    split_ifs at hr with _ hsame <;> cases hr
    · obtain rfl := Exact.eq_of_beq hsame
      exact (hone.elim id id).fails.right
    · obtain hd | hd := hone
      · exact hd.fails.left.right
      · exact hd.fails.right.right
  · cases hr

theorem Stuck.flattenRoot {op : BinaryOp} {a b r : Expr ℚ} (h : Stuck (binary op a b))
    (hr : Expr.flattenRoot op a b = .ok (some r)) : Spent r := by
  have hop := h.isBasic
  cases h with
  | zero c => simp [Expr.flattenRoot, constValue?, Expr.reassociate] at hr
  | left _ ha =>
      simp only [Expr.flattenRoot, ha.constValue, constValue?] at hr
      split at hr
      · rename_i hform
        rw [Exact.number_eq] at hr
        exact (Stuck.left hop (ha.flattenable hform)).reassociate hr
      · cases hr
  | right _ hb =>
      simp only [Expr.flattenRoot, hb.constValue, constValue?] at hr
      split at hr
      · rename_i hform
        rw [Exact.number_eq] at hr
        exact (Stuck.right hop (hb.flattenable hform)).reassociate hr
      · cases hr
  | both _ ha hb =>
      simp only [Expr.flattenRoot, ha.constValue, hb.constValue] at hr
      exact .inl (ha.addFractions hb (Except.ok.inj hr))

/-- Re-association of a stuck tree leaves an error for the next pass, or removes a division. -/
theorem Stuck.flattenPeaks {e r : Expr ℚ} (h : Stuck e) (hr : Expr.flattenPeaks e = .ok r) :
    Fails r ∨ divisions r < divisions e := by
  have hroot {op : BinaryOp} {a b r : Expr ℚ} (h : Stuck (binary op a b))
      (hr : Expr.flattenRoot op a b = .ok (some r)) :
      Fails r ∨ divisions r < divisions (binary op a b) := by
    obtain hfail | hnone := h.flattenRoot hr
    · exact .inl hfail
    · exact .inr (hnone ▸ h.divisions_pos)
  -- where a rule applies nothing below is touched, so only the other case needs the hypothesis
  induction h generalizing r with
  | zero c =>
      obtain hr | ⟨a', b', ⟨⟩, ⟨⟩, rfl⟩ := flattenPeaks_cases hr
      · exact hroot (.zero c) hr
      · exact .inl (fails_div_zero c)
  | neg _ ih =>
      obtain ⟨e', he, hr⟩ := bind_eq_ok.1 hr
      cases hr
      rw [fails_apply, divisions_apply]
      exact ih he
  | left hop ha ih =>
      obtain hr | ⟨a', b', ha', ⟨⟩, rfl⟩ := flattenPeaks_cases hr
      · exact hroot (.left hop ha) hr
      · exact (ih ha').imp Fails.left (by simp)
  | right hop hb ih =>
      obtain hr | ⟨a', b', ⟨⟩, hb', rfl⟩ := flattenPeaks_cases hr
      · exact hroot (.right hop hb) hr
      · exact (ih hb').imp Fails.right (by simp)
  | both hop ha hb iha ihb =>
      obtain hr | ⟨a', b', ha', hb', rfl⟩ := flattenPeaks_cases hr
      · exact hroot (.both hop ha hb) hr
      · obtain hfail | hless := iha ha'
        · exact .inl hfail.left
        · obtain hfail | hless' := ihb hb'
          · exact .inl hfail.right
          · refine .inr ?_
            simp only [divisions_binary]
            omega

/-! Closed trees on which simplification ends. -/

theorem not_swept_self {op : BinaryOp} {a b : Expr ℚ} (h : Plain ∅ (.binary op a b)) :
    sweep (binary op a b) ≠ .ok (.swept (binary op a b)) := by
  intro hs
  obtain ⟨folded, hfold, ⟨_, hs⟩ | ⟨hfolded, flat, hflat, ⟨_, hs⟩ | ⟨_, plain, hplain, hs⟩⟩⟩ :=
    sweep_cases hs
  · cases hs
  · cases hs
  · obtain ⟨f, hf, ⟨c, rfl⟩ | hstuck⟩ := h.fold
    · rw [hf] at hfold
      cases hfold
      cases hfolded
    · obtain rfl := Except.ok.inj (hf.symm.trans hfold)
      obtain hfail | hless := hstuck.flattenPeaks hflat
      · exact hfail plain hplain
      · -- no pass adds a division and one takes one away, but the sweep ends where it began
        have hcount := calc
          divisions (binary op a b) = divisions (collect plain) := by rw [Sweep.swept.inj hs]
          _ ≤ divisions plain := divisions_collect_le plain
          _ ≤ divisions flat := divisions_dropIdentities_le hplain
          _ < divisions f := hless
          _ ≤ divisions (binary op a b) := divisions_foldConstants_le hfold
        exact lt_irrefl _ hcount

/-- A closed tree that simplification gives back is a constant. -/
theorem Plain.eq_const_of_normal {e : Expr ℚ} (h : Plain ∅ e) (hn : Normal e) :
    ∃ c, e = .const c := by
  induction h with
  | const c => exact ⟨c, rfl⟩
  | var hx => exact absurd hx (Set.notMem_empty _)
  | square hx => exact absurd hx (Set.notMem_empty _)
  | neg _ ih =>
      obtain ⟨c, rfl⟩ := ih hn.operand
      cases hn with
      | unary _ hfold => simp [foldUnary, constValue?] at hfold
  | binary hop ha hb _ _ =>
      cases hn with
      | swept hs => exact absurd hs (not_swept_self (.binary hop ha hb))

end Expr

end EquationEngine
