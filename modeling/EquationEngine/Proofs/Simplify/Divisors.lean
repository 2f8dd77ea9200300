import EquationEngine.Proofs.Double.Parts
import EquationEngine.Proofs.Simplify.Closed
import EquationEngine.Proofs.Simplify.Errors

/-!
Constant divisors in double arithmetic.

Where a quotient of a quotient has two constant divisors, simplification multiplies them. In exact
arithmetic their product is zero only if one of them is. A product of doubles may also vanish
because it is too small, and then simplification finds a division by zero that no evaluation would
find.

Divisors nest: the divisors on the way from the root to a leaf are those that may come to be
multiplied. A nest lasts if no product of some of its divisors vanishes. While all nests of a tree
last, every pass succeeds, and all nests of its result last again.
-/

namespace EquationEngine

open Arithmetic Double

/-- The computation succeeds, and its result has a property. -/
def Succeeds {β : Type} (r : Except Error β) (P : β → Prop) : Prop := ∃ b, r = .ok b ∧ P b

namespace Succeeds

variable {β γ : Type} {r : Except Error β} {P : β → Prop}

theorem ok {b : β} (h : P b) : Succeeds (.ok b) P := ⟨b, rfl, h⟩

theorem bind {f : β → Except Error γ} {R : γ → Prop} (h : Succeeds r P)
    (hf : ∀ b, P b → Succeeds (f b) R) : Succeeds (r >>= f) R := by
  obtain ⟨b, hr, hb⟩ := h
  obtain ⟨c, hc, h⟩ := hf b hb
  exact ⟨c, bind_eq_ok.2 ⟨b, hr, hc⟩, h⟩

end Succeeds

namespace Expr

variable {C D : Multiset Float} {e : Expr Float}

/-! Nests. -/

/-- The products of some doubles, in any order and bracketing. -/
inductive Product : Multiset Float → Float → Prop
  | one (v : Float) : Product {v} v
  | mul {C D : Multiset Float} {u v : Float} :
      Product C u → Product D v → Product (C + D) (u * v)

/-- No product of some of the divisors vanishes. -/
def Lasting (C : Multiset Float) : Prop := ∀ D ≤ C, ∀ v, Product D v → isZero v = false

theorem Lasting.mono (h : Lasting C) (hD : D ≤ C) : Lasting D :=
  fun _ hE => h _ (hE.trans hD)

/-- Under the divisors `C`, all divisors of a tree are constants, products of divisors with which
all nests last. -/
def Lasts : Multiset Float → Expr Float → Prop
  | C, const _ | C, var _ => Lasting C
  | C, unary _ e => Lasts C e
  | C, binary .div a b => ∃ v D, b = const v ∧ Product D v ∧ Lasts (C + D) a
  | _, binary .mod _ _ => False
  | C, binary _ a b => Lasts C a ∧ Lasts C b
  | _, nary .. | _, equation .. | _, polynomial .. => False

@[simp] theorem lasts_const (v : Float) : Lasts C (const v) ↔ Lasting C := Iff.rfl

@[simp] theorem lasts_var (x : String) : Lasts C (var x) ↔ Lasting C := Iff.rfl

theorem lasts_binary {op : BinaryOp} (hop : op ≠ .div ∧ op ≠ .mod) {a b : Expr Float} :
    Lasts C (binary op a b) ↔ Lasts C a ∧ Lasts C b := by
  cases op with
  | div => exact absurd rfl hop.1
  | mod => exact absurd rfl hop.2
  | _ => exact Iff.rfl

theorem Lasts.ne_mod {op : BinaryOp} {a b : Expr Float} (h : Lasts C (binary op a b)) :
    op ≠ .mod := by
  rintro rfl
  exact h

theorem Lasts.lasting (h : Lasts C e) : Lasting C := by
  induction e generalizing C with
  | const v => exact h
  | var x => exact h
  | unary op e ih => exact ih h
  | binary op a b iha ihb =>
      by_cases hop : op = .div
      · subst hop
        obtain ⟨_, D, _, _, ha⟩ := h
        exact (iha ha).mono (Multiset.le_add_right C D)
      · exact iha ((lasts_binary ⟨hop, h.ne_mod⟩).1 h).1
  | _ => exact h.elim

/-- Under fewer divisors all nests last the more. -/
theorem Lasts.mono (h : Lasts C e) (hD : D ≤ C) : Lasts D e := by
  induction e generalizing C D with
  | const v => exact Lasting.mono h hD
  | var x => exact Lasting.mono h hD
  | unary op e ih => exact ih h hD
  | binary op a b iha ihb =>
      by_cases hop : op = .div
      · subst hop
        obtain ⟨v, E, rfl, hv, ha⟩ := h
        exact ⟨v, E, rfl, hv, iha ha (Multiset.add_le_add_right hD)⟩
      · obtain ⟨ha, hb⟩ := (lasts_binary ⟨hop, h.ne_mod⟩).1 h
        exact (lasts_binary ⟨hop, h.ne_mod⟩).2 ⟨iha ha hD, ihb hb hD⟩
  | _ => exact h.elim

/-- The left operand of an operator is no further down than the operator. -/
theorem Lasts.left {op : BinaryOp} {a b : Expr Float} (h : Lasts C (binary op a b)) :
    Lasts C a := by
  by_cases hop : op = .div
  · subst hop
    obtain ⟨_, D, _, _, ha⟩ := h
    exact ha.mono (Multiset.le_add_right C D)
  · exact ((lasts_binary ⟨hop, h.ne_mod⟩).1 h).1

theorem Lasts.right {op : BinaryOp} {a b : Expr Float} (h : Lasts C (binary op a b)) :
    Lasts C b := by
  by_cases hop : op = .div
  · obtain rfl := hop
    obtain ⟨v, D, rfl, _, ha⟩ := h
    exact ha.lasting.mono (Multiset.le_add_right C D)
  · exact ((lasts_binary ⟨hop, h.ne_mod⟩).1 h).2

/-- A divisor is not zero. -/
theorem Lasts.divisor_ne_zero {v : Float} (h : Lasts (C + D) e) (hv : Product D v) :
    isZero v = false :=
  h.lasting D (Multiset.le_add_left D C) v hv

theorem number_of_ne_zero {v : Float} (h : isZero v = false) : number v = const v :=
  congrArg const (Same.settle_of_ne_zero h)

theorem lasts_apply (op : UnaryOp) : Lasts C (apply op e) ↔ Lasts C e := by
  fun_induction apply op e with
  | case1 e => exact Iff.rfl
  | case2 e ih => exact ih
  | case3 op e => exact Iff.rfl

theorem lasts_of_constValue {v : Float} (h : constValue? e = some v) :
    Lasts C e ↔ Lasting C := by
  fun_induction constValue? e generalizing v with
  | case1 v => exact Iff.rfl
  | case2 e ih =>
      obtain ⟨u, hu, _⟩ := Option.map_eq_some_iff.1 h
      exact ih hu
  | case3 e ih =>
      obtain ⟨u, hu, _⟩ := Option.map_eq_some_iff.1 h
      exact ih hu
  | case4 => cases h

/-- The operands of an operator may be replaced, but a divisor stays the constant that it is. -/
theorem Lasts.replace {op : BinaryOp} {a b a' b' : Expr Float} (h : Lasts C (binary op a b))
    (ha : ∀ C, Lasts C a → Lasts C a') (hb : ∀ C, Lasts C b → Lasts C b')
    (hconst : ∀ v, b = const v → isZero v = false → b' = const v) :
    Lasts C (binary op a' b') := by
  by_cases hop : op = .div
  · subst hop
    obtain ⟨v, D, rfl, hv, hdividend⟩ := h
    exact ⟨v, D, hconst v rfl (hdividend.divisor_ne_zero hv), hv, ha _ hdividend⟩
  · exact (lasts_binary ⟨hop, h.ne_mod⟩).2 ⟨ha C h.left, hb C h.right⟩

/-- A pass that leaves constants alone may go through both operands of an operator. -/
theorem Lasts.operands (pass : Expr Float → Except Error (Expr Float))
    (hconst : ∀ v, pass (const v) = .ok (const v)) {op : BinaryOp} {a b : Expr Float}
    (h : Lasts C (binary op a b)) (ha : ∀ C, Lasts C a → Succeeds (pass a) (Lasts C))
    (hb : ∀ C, Lasts C b → Succeeds (pass b) (Lasts C)) :
    ∃ a' b', pass a = .ok a' ∧ pass b = .ok b' ∧ Lasts C (binary op a' b') := by
  have hresult {e e' : Expr Float} (he : ∀ C, Lasts C e → Succeeds (pass e) (Lasts C))
      (hpass : pass e = .ok e') (C : Multiset Float) (h : Lasts C e) : Lasts C e' := by
    obtain ⟨r, hr, hlasts⟩ := he C h
    rwa [← Except.ok.inj (hr.symm.trans hpass)]
  obtain ⟨a', hpass, -⟩ := ha C h.left
  obtain ⟨b', hpass', -⟩ := hb C h.right
  refine ⟨a', b', hpass, hpass', h.replace (hresult ha hpass) (hresult hb hpass') ?_⟩
  rintro v rfl -
  exact Except.ok.inj (hpass'.symm.trans (hconst v))

/-! Constant folding. -/

@[simp] theorem lasts_foldUnary (op : UnaryOp) : Lasts C (foldUnary op e) ↔ Lasts C e := by
  unfold foldUnary
  split
  · split
    · exact (lasts_of_constValue ‹_›).symm
    · exact lasts_apply _
  · split
    · exact (lasts_of_constValue ‹_›).symm
    · exact lasts_apply _
  · exact lasts_apply _

theorem Lasts.foldBinary {op : BinaryOp} {a b : Expr Float} (h : Lasts C (binary op a b)) :
    Succeeds (Expr.foldBinary op a b) (Lasts C) := by
  cases hfold : Expr.foldBinary op a b with
  | error err => exact absurd (foldBinary_error hfold).1 h.ne_mod
  | ok r =>
      refine .ok ?_
      unfold Expr.foldBinary at hfold
      split at hfold
      · split at hfold
        · cases hfold
          exact h
        · split at hfold
          · cases hfold
            exact h.lasting
          · split at hfold <;> cases hfold
            exact h
      · cases hfold
        exact h

theorem Lasts.foldConstants (h : Lasts C e) : Succeeds (Expr.foldConstants e) (Lasts C) := by
  induction e generalizing C with
  | unary op e ih => exact (ih h).bind fun e' he => .ok ((lasts_foldUnary op).2 he)
  | binary op a b iha ihb =>
      obtain ⟨a', b', ha, hb, h⟩ := h.operands Expr.foldConstants (fun _ => rfl)
        (fun _ => iha) (fun _ => ihb)
      rw [Expr.foldConstants, ha, hb]
      exact h.foldBinary
  | const v => exact .ok h
  | var x => exact .ok h
  | _ => exact h.elim

/-! Re-association. -/

/-- What is built without a quotient brings in no divisor. -/
theorem base_lasts (hC : Lasting C) : Base (Lasts C) where
  number _ := hC
  negate h := negate_of_neg (fun h => h) (fun h => h) h
  add ha hb := ⟨ha, hb⟩
  sub ha hb := ⟨ha, hb⟩
  mul ha hb := ⟨ha, hb⟩
  square h := ⟨h, hC⟩
  operand h := h
  left h := h.left
  right h := h.right

theorem Lasts.base (h : Lasts C e) : Base (Lasts C) := base_lasts h.lasting

/-- A quotient keeps its divisor if its dividend becomes a constant. -/
theorem Lasts.shared {a b : Expr Float} (h : Lasts C (binary .div a b)) (dividend : Float) :
    Lasts C (Expr.shared dividend b) := by
  unfold Expr.shared
  split
  · exact h.lasting
  · obtain ⟨v, D, rfl, hv, ha⟩ := h
    exact ⟨v, D, rfl, hv, ha.lasting⟩

theorem Lasts.flattenable {r : Expr Float} (h : Lasts C e) (hr : flattenable? e = some r) :
    Lasts C r := by
  obtain ⟨op, a, b, rfl, hform⟩ | ⟨op, a, b, rfl, rfl⟩ := flattenable?_cases hr
  · obtain ⟨rfl, rfl⟩ | ⟨rfl, rfl⟩ | ⟨rfl, rfl⟩ | ⟨rfl, rfl⟩ := hform
    · exact ⟨h.base.leading h.1, h.2⟩
    · exact ⟨h.base.leading h.1, h.2⟩
    · exact ⟨h.base.leading h.1, h.2⟩
    · obtain ⟨v, D, rfl, hv, ha⟩ := h
      exact ⟨v, D, rfl, hv, ha.base.leading ha⟩
  · exact h

/-- A rule succeeds, and if it applies, all nests of its result last under the divisors `C`. -/
def Reassociates (C : Multiset Float) (r : Except Error (Option (Expr Float))) : Prop :=
  Succeeds r fun o => ∀ e, o = some e → Lasts C e

theorem Reassociates.none : Reassociates C (.ok none) := .ok nofun

theorem Reassociates.some (h : Lasts C e) : Reassociates C (.ok (some e)) :=
  .ok fun _ he => Option.some.inj he ▸ h

theorem Lasts.scaleProduct {quotient : Bool} {a b : Expr Float}
    (h : Lasts C (binary (productOp quotient) a b)) (k : Float) :
    Reassociates C (Expr.scaleProduct quotient a b k) := by
  unfold Expr.scaleProduct
  split
  · cases quotient
    · exact .some (h.base.scaled h.right _)
    · exact .some (h.shared _)
  · cases quotient
    · exact .some (h.base.scaled h.left _)
    · have ha := h.left
      obtain ⟨v, D, ⟨⟩, hv, hnest⟩ := h
      rw [if_pos rfl, hnest.divisor_ne_zero hv]
      exact .some (ha.base.scaled ha _)
  · exact .none

/-- A product or quotient under one more divisor, which it loses or shares with its own. -/
theorem Lasts.divideProduct {quotient : Bool} {a b : Expr Float} {k : Float}
    (h : Lasts (C + D) (binary (productOp quotient) a b)) (hk : Product D k) :
    Reassociates C (Expr.divideProduct quotient a b k) := by
  have hbelow := h.mono (Multiset.le_add_right C D)
  have hzero := h.divisor_ne_zero hk
  unfold Expr.divideProduct
  split
  · rw [hzero]
    cases quotient
    · exact .some (hbelow.base.scaled hbelow.right _)
    · exact .some (hbelow.shared _)
  · cases quotient
    · rw [hzero]
      exact .some (hbelow.base.scaled hbelow.left _)
    · obtain ⟨c, E, ⟨⟩, hc, ha⟩ := h
      -- the two divisors become one, a product of what both are products of
      rw [add_assoc, add_comm D] at ha
      have hproduct := hc.mul hk
      have hvalue := ha.divisor_ne_zero hproduct
      simp only [hvalue, if_true, Bool.false_eq_true, if_false]
      split
      · exact .some hbelow.left
      · exact .some ⟨_, E + D, number_of_ne_zero hvalue, hproduct, ha⟩
  · exact .none

theorem Lasts.distributeFactor {op : BinaryOp} (hop : op ≠ .div ∧ op ≠ .mod) {a b : Expr Float}
    (h : Lasts C (binary op a b)) (k : Float) : Lasts C (Expr.distributeFactor op a b k) := by
  unfold Expr.distributeFactor
  split
  · exact h.lasting
  · exact (lasts_binary hop).2 ⟨h.base.timesConst h.left k, h.base.timesConst h.right k⟩

theorem Lasts.overConst {k : Float} (h : Lasts (C + D) e) (hk : Product D k) :
    Lasts C (Expr.overConst k e) := by
  unfold Expr.overConst
  split
  · exact h.lasting.mono (Multiset.le_add_right C D)
  · exact ⟨k, D, number_of_ne_zero (h.divisor_ne_zero hk), hk, h⟩

theorem Lasts.distributeDivisor {op : BinaryOp} (hop : op ≠ .div ∧ op ≠ .mod) {a b : Expr Float}
    {k : Float} (h : Lasts (C + D) (binary op a b)) (hk : Product D k) :
    Reassociates C (do return some (← Expr.distributeDivisor op a b k)) := by
  unfold Expr.distributeDivisor
  rw [h.divisor_ne_zero hk]
  exact .some ((lasts_binary hop).2 ⟨h.left.overConst hk, h.right.overConst hk⟩)

theorem Lasts.reassociate {op : BinaryOp} {left right : Expr Float}
    (h : Lasts C (binary op left right)) : Reassociates C (Expr.reassociate op left right) := by
  have hl := h.left
  have hr := h.right
  have hrule := reassociation op left right
  generalize Expr.reassociate op left right = o at hrule
  cases hrule with
  | addInto => exact .ok fun _ => h.base.addInto hl.left hl.right
  | addIntoRight => exact .ok fun _ => h.base.addInto hr.left hr.right
  | subtractFrom => exact .ok fun _ => h.base.subtractFrom hl.left hl.right
  | subtractSum => exact .ok fun _ => h.base.subtractSum hr.left hr.right
  | scaleProduct => exact hl.scaleProduct _
  | scaleProductRight => exact hr.scaleProduct _
  | distributeFactor minus => exact .some (hl.distributeFactor (sumOp_undivided minus) _)
  | distributeFactorRight minus => exact .some (hr.distributeFactor (sumOp_undivided minus) _)
  | divideProduct =>
      obtain ⟨k, D, ⟨⟩, hk, h⟩ := h
      exact h.divideProduct hk
  | divideByProduct =>
      -- a divisor is not a product or quotient itself
      obtain ⟨_, _, ⟨⟩, _⟩ := h
  | distributeDivisor minus =>
      obtain ⟨k, D, ⟨⟩, hk, h⟩ := h
      exact h.distributeDivisor (sumOp_undivided minus) hk
  | none => exact .none

/-- Two quotients by constants are not added. -/
theorem Lasts.addFractions {op : BinaryOp} {a b : Expr Float} (h : Lasts C (binary op a b)) :
    addFractions? op a b = none := by
  unfold addFractions?
  split
  · obtain ⟨⟨_, _, rfl, _⟩, _, _, rfl, _⟩ := h
    rfl
  · rfl

theorem Lasts.flattenRoot {op : BinaryOp} {a b : Expr Float} (h : Lasts C (binary op a b)) :
    Reassociates C (Expr.flattenRoot op a b) := by
  have hnumber {e : Expr Float} (v : Float) (C : Multiset Float) (h : Lasts C e) :
      Lasts C (number v) := h.lasting
  have hkept {y : Float} (hy : constValue? b = some y) (v : Float) (hb : b = .const v)
      (hzero : isZero v = false) : number y = .const v := by
    subst hb
    obtain rfl := Option.some.inj hy
    exact number_of_ne_zero hzero
  unfold Expr.flattenRoot
  split
  · rw [h.addFractions]
    exact .none
  · rename_i x y _ hy
    exact (h.replace (hnumber x) (hnumber y) (hkept hy)).reassociate
  · rename_i x _ hb
    split
    · rename_i right hright
      refine (h.replace (hnumber x) (fun _ hb => hb.flattenable hright) ?_).reassociate
      rintro v rfl -
      cases hb
    · exact .none
  · rename_i y _ hy
    split
    · rename_i left hleft
      exact (h.replace (fun _ ha => ha.flattenable hleft) (hnumber y) (hkept hy)).reassociate
    · exact .none

theorem Lasts.flattenPeaks (h : Lasts C e) : Succeeds (Expr.flattenPeaks e) (Lasts C) := by
  induction e generalizing C with
  | unary op e ih => exact (ih h).bind fun e' he => .ok ((lasts_apply op).2 he)
  | binary op a b iha ihb =>
      refine Succeeds.bind h.flattenRoot fun root hroot => ?_
      cases root with
      | some e => exact .ok (hroot e rfl)
      | none =>
          obtain ⟨a', b', ha, hb, h⟩ := h.operands Expr.flattenPeaks (fun _ => rfl)
            (fun _ => iha) (fun _ => ihb)
          exact ⟨_, bind_eq_ok.2 ⟨a', ha, bind_eq_ok.2 ⟨b', hb, rfl⟩⟩, h⟩
  | const v => exact .ok h
  | var x => exact .ok h
  | _ => exact h.elim

/-! Identity elimination. -/

theorem Lasts.dropInQuotient {a b : Expr Float} (h : Lasts C (binary .div a b)) :
    Succeeds (Expr.dropInQuotient a b) (Lasts C) := by
  have ha := h.left
  obtain ⟨v, D, rfl, hv, hnest⟩ := h
  have hzero : isInt 0 (Expr.const v) = false := hnest.divisor_ne_zero hv
  unfold Expr.dropInQuotient
  rw [hzero, if_neg Bool.false_ne_true]
  split_ifs
  · exact .ok ha.lasting
  · exact .ok ha
  · exact .ok (ha.base.negate ha)
  · split
    · exact .ok ha.lasting
    · rename_i hx _
      exact .ok ⟨⟨v, D, rfl, hv, hnest.lasting⟩, ha.base.signedVariable ha hx⟩
    · exact .ok ⟨v, D, rfl, hv, hnest⟩

theorem Lasts.dropAtRoot {op : BinaryOp} {a b : Expr Float} (h : Lasts C (binary op a b)) :
    Succeeds (Expr.dropAtRoot op a b) (Lasts C) := by
  have ha := h.left
  have hb := h.right
  cases op with
  | add => exact .ok (h.base.dropInSum ha hb)
  | sub => exact .ok (h.base.dropInDifference ha hb)
  | mul => exact .ok (h.base.dropInProduct ha hb)
  | div => exact h.dropInQuotient
  | pow => exact .ok (h.base.dropInPower h)
  | mod => exact h.elim

theorem Lasts.dropIdentities (h : Lasts C e) : Succeeds (Expr.dropIdentities e) (Lasts C) := by
  induction e generalizing C with
  | unary op e ih => exact (ih h).bind fun e' he => .ok ((lasts_apply op).2 he)
  | binary op a b iha ihb =>
      obtain ⟨a', b', ha, hb, h⟩ := h.operands Expr.dropIdentities (fun _ => rfl)
        (fun _ => iha) (fun _ => ihb)
      rw [Expr.dropIdentities, ha, hb]
      exact h.dropAtRoot
  | const v => exact .ok h
  | var x => exact .ok h
  | _ => exact h.elim

/-! Collection of like terms. -/

theorem Lasts.collect_and_terms (h : Lasts C e) :
    Lasts C (Expr.collect e) ∧ ∀ s, ∀ t ∈ collectTerms s e, Lasts C t := by
  have hterm {C : Multiset Float} {e : Expr Float} (h : Lasts C e) (s : Sign) :
      ∀ t ∈ [Expr.signed s e], Lasts C t :=
    List.forall_mem_singleton.2 (h.base.signed h)
  induction e generalizing C with
  | unary op e ih =>
      have hin := (lasts_apply op).2 (ih h).1
      exact ⟨hin, hterm hin⟩
  | binary op a b iha ihb =>
      have hterms (s s' : Sign) : ∀ t ∈ collectTerms s a ++ collectTerms s' b, Lasts C t :=
        List.forall_mem_append.2 ⟨(iha h.left).2 s, (ihb h.right).2 s'⟩
      have hnode : Lasts C (binary op a.collect b.collect) :=
        h.replace (fun _ ha => (iha ha).1) (fun _ hb => (ihb hb).1) fun v hv _ => by rw [hv]; rfl
      cases op with
      | add => exact ⟨h.base.combine (hterms _ _), fun s => hterms _ _⟩
      | sub => exact ⟨h.base.combine (hterms _ _), fun s => hterms _ _⟩
      | _ => exact ⟨hnode, hterm hnode⟩
  | const v => exact ⟨h, hterm h⟩
  | var x => exact ⟨h, hterm h⟩
  | _ => exact h.elim

theorem Lasts.collect (h : Lasts C e) : Lasts C (Expr.collect e) := h.collect_and_terms.1

/-! The loop. -/

/-- If a tree can be folded to one whose nests last, a sweep over it succeeds. -/
theorem Succeeds.sweep (h : Succeeds (foldConstants e) (Lasts C)) :
    Succeeds (sweep e) fun s => Lasts C s.result := by
  refine h.bind fun folded hfolded => ?_
  split
  · exact .ok hfolded
  · refine hfolded.flattenPeaks.bind fun flat hflat => ?_
    split
    · exact .ok hflat
    · exact hflat.dropIdentities.bind fun plain hplain => .ok hplain.collect

/-- The run gives an answer. -/
def Answers {β : Type} (r : Run β) : Prop := ∃ b, r.outcome = .ok b

theorem Succeeds.iterate {restart : Expr Float → Run (Expr Float)}
    (hrestart : ∀ e, Lasts C e → Answers (restart e)) {limit : Int} {n done : Nat}
    (h : Succeeds (foldConstants e) (Lasts C)) : Answers (iterate restart limit n done e) := by
  induction n generalizing done e with
  | zero => exact ⟨e, rfl⟩
  | succ n ih =>
      obtain ⟨s, hs, hlasts⟩ := Succeeds.sweep h
      rw [Answers, Expr.iterate, Run.outcome_bind_of_ok (r := Run.lift (Expr.sweep e)) hs]
      cases s with
      | constant c => exact ⟨c, rfl⟩
      | swept next =>
          dsimp only
          split_ifs
          · exact ⟨next, rfl⟩
          · exact ih hlasts.foldConstants
          · exact hrestart next hlasts

theorem Succeeds.simplifyWith {restart : Expr Float → Run (Expr Float)}
    (hrestart : ∀ e, Lasts C e → Answers (restart e)) {limit : Int}
    (h : Succeeds (foldConstants e) (Lasts C)) : Answers (simplifyWith restart limit e) := by
  induction e with
  | const v => exact ⟨_, rfl⟩
  | var x => exact ⟨_, rfl⟩
  | unary op e ih =>
      obtain ⟨r, hr, hlasts⟩ := h
      obtain ⟨e', he, hr⟩ := bind_eq_ok.1 hr
      cases hr
      obtain ⟨r, hr⟩ := ih ⟨e', he, (lasts_foldUnary op).1 hlasts⟩
      exact ⟨_, Run.outcome_bind.2 ⟨r, hr, rfl⟩⟩
  | binary op a b => exact Succeeds.iterate hrestart h
  | polynomial x e ih => exact ih h
  | nary op es =>
      obtain ⟨r, hr, hlasts⟩ := h
      cases hr
      exact hlasts.elim
  | equation r a b =>
      obtain ⟨r, hr, hlasts⟩ := h
      cases hr
      exact hlasts.elim

theorem Succeeds.simplifyAtMost {limit : Int} {n : Nat}
    (h : Succeeds (foldConstants e) (Lasts C)) : Answers (simplifyAtMost limit n e) := by
  induction n generalizing e with
  | zero => exact Succeeds.simplifyWith (fun e _ => ⟨e, rfl⟩) h
  | succ n ih => exact Succeeds.simplifyWith (fun e he => ih he.foldConstants) h

/-- If a tree can be folded to one whose nests last, simplifying it succeeds. -/
theorem Succeeds.simplify (h : Succeeds (foldConstants e) (Lasts C)) (limit : Int) :
    Answers (simplify limit e) :=
  Succeeds.simplifyAtMost h

/-! Trees as they are given. -/

section Given

variable {α : Type}

/-- Trees of constants, one variable, negation and the four basic operations. -/
inductive Fractional (x : String) : Expr α → Prop
  | const (v : α) : Fractional x (const v)
  | var : Fractional x (var x)
  | neg {e : Expr α} : Fractional x e → Fractional x (unary .neg e)
  | binary {op : BinaryOp} {a b : Expr α} :
      op.isBasic = true → Fractional x a → Fractional x b → Fractional x (binary op a b)

/-- A node that does not divide by a tree in which the variable is found. -/
def DividesWithout (x : String) : Expr α → Prop
  | binary .div _ b => b.mentions x = false
  | _ => True

variable [Arithmetic α] {x : String} {e : Expr α}

theorem Fractional.evaluate_eq (h : Fractional x e) (env : Assignment α) :
    evaluate env e = (eval env e).map .number := by
  have hmap (r : Except Error α) : (do return Value.number (← r)) = r.map .number := by
    cases r <;> rfl
  cases h <;> exact hmap _

theorem ok_of_apply_div {y z w : α} (h : BinaryOp.apply .div y z = .ok w) :
    isZero z = false ∧ w = y / z := by
  cases hzero : isZero z with
  | true =>
      rw [BinaryOp.apply, if_pos hzero] at h
      cases h
  | false =>
      rw [BinaryOp.apply, hzero] at h
      cases h
      exact ⟨rfl, rfl⟩

/-- Where the variable has a value, an evaluation succeeds or divides by zero. -/
theorem Fractional.eval_cases (h : Fractional x e) (v : α) :
    (∃ w, eval (.single x v) e = .ok w) ∨ eval (.single x v) e = .error .divisionByZero := by
  induction h with
  | const c => exact .inl ⟨c, rfl⟩
  | var => exact .inl ⟨v, by simp [eval, Assignment.single]⟩
  | neg _ ih =>
      obtain ⟨w, hw⟩ | hw := ih
      · exact .inl ⟨-w, bind_eq_ok.2 ⟨w, hw, rfl⟩⟩
      · exact .inr (bind_eq_error.2 (.inl hw))
  | @binary op a b hop _ _ iha ihb =>
      obtain ⟨y, hy⟩ | hy := iha
      · obtain ⟨z, hz⟩ | hz := ihb
        · have hroot {r : Except Error α} (hr : op.apply y z = r) :
              eval (.single x v) (.binary op a b) = r := by
            rw [eval, hy, hz]
            exact hr
          cases op with
          | div =>
              by_cases hzero : isZero z = true
              · exact .inr (hroot (if_pos hzero))
              · exact .inl ⟨_, hroot (if_neg hzero)⟩
          | pow | mod => cases hop
          | _ => exact .inl ⟨_, hroot rfl⟩
        · exact .inr (bind_eq_error.2 (.inr ⟨y, hy, bind_eq_error.2 (.inl hz)⟩))
      · exact .inr (bind_eq_error.2 (.inl hy))

/-- A tree in which the variable is not found has the same value everywhere. -/
theorem Fractional.eval_closed (h : Fractional x e) (hx : e.mentions x = false)
    (env env' : Assignment α) : eval env e = eval env' e := by
  induction h with
  | const c => rfl
  | var => simp [mentions] at hx
  | neg _ ih => rw [eval, eval, ih hx]
  | binary _ _ _ iha ihb =>
      rw [mentions, Bool.or_eq_false_iff] at hx
      rw [eval, eval, iha hx.1, ihb hx.2]

end Given

variable {x : String} {env : Assignment Float}

/-- A tree in which the variable is not found is folded to its value, up to the sign of a zero. -/
theorem Fractional.fold_closed (h : Fractional x e) (hx : e.mentions x = false) {v : Float}
    (hv : eval env e = .ok v) : ∃ u, foldConstants e = .ok (.const u) ∧ Same u v := by
  induction h generalizing v with
  | const c =>
      cases hv
      exact ⟨_, rfl, .refl _⟩
  | var => simp [mentions] at hx
  | neg _ ih =>
      obtain ⟨w, hw, hv⟩ := bind_eq_ok.1 hv
      cases hv
      obtain ⟨u, hu, hsame⟩ := ih hx hw
      exact ⟨_, bind_eq_ok.2 ⟨_, hu, rfl⟩, (Same.settle _).trans hsame.neg⟩
  | @binary op a b hop _ _ iha ihb =>
      rw [mentions, Bool.or_eq_false_iff] at hx
      obtain ⟨y, hy, hv⟩ := bind_eq_ok.1 hv
      obtain ⟨z, hz, hv⟩ := bind_eq_ok.1 hv
      obtain ⟨u, hu, hleft⟩ := iha hx.1 hy
      obtain ⟨w, hw, hright⟩ := ihb hx.2 hz
      have hfold {r : Expr Float} (hr : Expr.foldBinary op (.const u) (.const w) = .ok r) :
          foldConstants (.binary op a b) = .ok r :=
        bind_eq_ok.2 ⟨_, hu, bind_eq_ok.2 ⟨_, hw, hr⟩⟩
      cases op with
      | add =>
          cases hv
          exact ⟨_, hfold rfl, (Same.settle _).trans (hleft.add hright)⟩
      | sub =>
          cases hv
          exact ⟨_, hfold rfl, (Same.settle _).trans (hleft.sub hright)⟩
      | mul =>
          cases hv
          exact ⟨_, hfold rfl, (Same.settle _).trans (hleft.mul hright)⟩
      | div =>
          obtain ⟨hzero, rfl⟩ := ok_of_apply_div hv
          obtain rfl := (hright.symm.eq_of_ne_zero hzero).symm
          refine ⟨_, hfold ?_, (Same.settle _).trans (hleft.div w)⟩
          simp [foldBinary, constValue?, BinaryOp.apply, hzero, number]
      | pow | mod => cases hop

/-! Nests of a given tree. -/

/-- The values of the divisors on the way from the root of a tree to one of its leaves. -/
inductive Nest : Expr Float → Multiset Float → Prop
  | const (v : Float) : Nest (const v) 0
  | var (x : String) : Nest (var x) 0
  | unary {op : UnaryOp} {e : Expr Float} {C : Multiset Float} : Nest e C → Nest (unary op e) C
  | left {op : BinaryOp} {a b : Expr Float} {C : Multiset Float} :
      op ≠ .div → Nest a C → Nest (binary op a b) C
  | right {op : BinaryOp} {a b : Expr Float} {C : Multiset Float} :
      op ≠ .div → Nest b C → Nest (binary op a b) C
  | div {a b : Expr Float} {C : Multiset Float} {v : Float} :
      eval (fun _ => none) b = .ok v → Nest a C → Nest (binary .div a b) (v ::ₘ C)

/-- None of the divisors is zero, but a product of some of them is. -/
def Vanishing (C : Multiset Float) : Prop :=
  (∀ v ∈ C, isZero v = false) ∧ ∃ D ≤ C, ∃ v, Product D v ∧ isZero v = true

theorem lasting_of_not_vanishing (hC : ¬Vanishing C) (hzero : ∀ v ∈ C, isZero v = false) :
    Lasting C := by
  intro D hD v hv
  by_contra hne
  exact hC ⟨hzero, D, hD, v, hv, by simpa using hne⟩

/-- Where a tree has a value, none of its divisors is zero. -/
theorem Nest.ne_zero (h : Nest e C) (he : Fractional x e) (hfree : EveryNode (DividesWithout x) e)
    {v : Float} (hv : eval env e = .ok v) : ∀ u ∈ C, isZero u = false := by
  induction h generalizing v with
  | const v => simp
  | var x => simp
  | unary _ ih =>
      obtain ⟨w, hw, -⟩ := bind_eq_ok.1 hv
      cases he with
      | neg he => exact ih he (everyNode_unary.1 hfree).2 hw
  | left _ _ ih =>
      obtain ⟨y, hy, -⟩ := bind_eq_ok.1 hv
      cases he with
      | binary _ ha _ => exact ih ha (everyNode_binary.1 hfree).2.1 hy
  | right _ _ ih =>
      obtain ⟨y, _, hv⟩ := bind_eq_ok.1 hv
      obtain ⟨z, hz, -⟩ := bind_eq_ok.1 hv
      cases he with
      | binary _ _ hb => exact ih hb (everyNode_binary.1 hfree).2.2 hz
  | div hu _ ih =>
      obtain ⟨y, hy, hv⟩ := bind_eq_ok.1 hv
      obtain ⟨z, hz, hv⟩ := bind_eq_ok.1 hv
      obtain ⟨hroot, hfree, -⟩ := everyNode_binary.1 hfree
      cases he with
      | binary _ ha hb =>
          rw [hb.eval_closed hroot env (fun _ => none), hu] at hz
          cases hz
          exact Multiset.forall_mem_cons.2 ⟨(ok_of_apply_div hv).1, ih ha hfree hy⟩

/-- A tree with a value is folded to one whose nests last, if its own last. -/
theorem Fractional.foldConstants (h : Fractional x e) (hfree : EveryNode (DividesWithout x) e)
    {v : Float} (hv : eval env e = .ok v) (hnests : ∀ D, Nest e D → Lasting (C + D)) :
    Succeeds (Expr.foldConstants e) (Lasts C) := by
  induction h generalizing C v with
  | const c => exact .ok (by simpa using hnests 0 (.const c))
  | var => exact .ok (by simpa using hnests 0 (.var x))
  | neg _ ih =>
      obtain ⟨w, hw, -⟩ := bind_eq_ok.1 hv
      refine (ih (everyNode_unary.1 hfree).2 hw fun D hD => hnests D (.unary hD)).bind ?_
      exact fun e' he => .ok ((lasts_foldUnary .neg).2 he)
  | @binary op a b hop ha hb iha ihb =>
      obtain ⟨y, hy, hv⟩ := bind_eq_ok.1 hv
      obtain ⟨z, hz, hv⟩ := bind_eq_ok.1 hv
      obtain ⟨hroot, hfa, hfb⟩ := everyNode_binary.1 hfree
      by_cases hdiv : op = .div
      · subst hdiv
        -- the divisor is folded to its value, and the dividend stands under it from now on
        obtain ⟨hzero, -⟩ := ok_of_apply_div hv
        obtain ⟨u, hu, hsame⟩ := hb.fold_closed hroot hz
        obtain rfl := hsame.symm.eq_of_ne_zero hzero
        have hvalue := (hb.eval_closed hroot (fun _ => none) env).trans hz
        obtain ⟨a', ha', hlasts⟩ := iha (C := C + {z}) hfa hy fun D hD => by
          rw [add_assoc, Multiset.singleton_add]
          exact hnests _ (.div hvalue hD)
        have hquotient : Lasts C (.binary .div a' (.const z)) := ⟨z, _, rfl, .one z, hlasts⟩
        rw [Expr.foldConstants, ha', hu]
        exact hquotient.foldBinary
      · have hmod : op ≠ .mod := by
          rintro rfl
          cases hop
        refine (iha hfa hy fun D hD => hnests D (.left hdiv hD)).bind fun a' ha' => ?_
        refine (ihb hfb hz fun D hD => hnests D (.right hdiv hD)).bind fun b' hb' => ?_
        exact ((lasts_binary ⟨hdiv, hmod⟩).2 ⟨ha', hb'⟩).foldBinary

/-- Unless a product of nested divisors vanishes, a tree with a value is simplified. -/
theorem Fractional.simplify (h : Fractional x e) (hfree : EveryNode (DividesWithout x) e)
    {v : Float} (hv : eval env e = .ok v) (hnests : ¬∃ C, Nest e C ∧ Vanishing C) (limit : Int) :
    Answers (Expr.simplify limit e) := by
  refine Succeeds.simplify (C := 0) (h.foldConstants hfree hv fun D hD => ?_) limit
  rw [zero_add]
  exact lasting_of_not_vanishing (fun hvanish => hnests ⟨D, hD, hvanish⟩) (hD.ne_zero h hfree hv)

theorem Fractional.algebraic {e : Expr ℚ} (h : Fractional x e) : Algebraic {2} e := by
  induction h with
  | const c => exact .const c
  | var => exact .var x
  | neg _ ih => exact .unary ih
  | @binary op a b hop _ _ iha ihb =>
      refine .binary ?_ iha ihb
      cases op <;> trivial

/-- A run that ends in an error has no answer. -/
theorem not_answers {β : Type} {r : Run β} {err : Error} (h : r.outcome = .error err) :
    ¬Answers r := by
  rintro ⟨b, hb⟩
  cases h.symm.trans hb

/-- In double arithmetic, simplifying a tree without variables in its divisors divides by zero only
if the tree does so at every value of its variable, or if a product of nested divisors vanishes. In
exact arithmetic, simplifying any tree divides by zero only if the tree does so at every value. -/
theorem simplify_divides_by_zero (x : String) (limit : Int) :
    (∀ e : Expr Float, Fractional x e → EveryNode (DividesWithout x) e →
      (Expr.simplify limit e).outcome = .error .divisionByZero →
      (∀ v, evaluate (.single x v) e = .error .divisionByZero) ∨ ∃ C, Nest e C ∧ Vanishing C) ∧
    ∀ [Exact], ∀ e : Expr ℚ, Fractional x e →
      (Expr.simplify limit e).outcome = .error .divisionByZero →
      ∀ v, evaluate (.single x v) e = .error .divisionByZero := by
  constructor
  · intro e he hfree herror
    by_cases hnests : ∃ C, Nest e C ∧ Vanishing C
    · exact .inr hnests
    refine .inl fun v => ?_
    obtain ⟨w, hw⟩ | hw := he.eval_cases v
    · exact absurd (he.simplify hfree hw hnests limit) (not_answers herror)
    · rw [he.evaluate_eq, hw]
      rfl
  · intro _ e he herror v
    obtain ⟨w, hw⟩ | hw := he.eval_cases v
    · obtain ⟨r, hr, -⟩ :=
        (he.algebraic.denotes hw).simplify (Set.mem_singleton 2) (Set.injOn_singleton _ _) limit
      exact absurd ⟨r, hr⟩ (not_answers herror)
    · rw [he.evaluate_eq, hw]
      rfl

set_option maxRecDepth 8000 in
/-- The quotient `x / (1 - 1)` is not simplified, and has no value at any double or fraction. -/
theorem simplify_divides_by_zero_difference :
    letI := Exact.whole
    let e : Expr Float := binary .div (var "x") (binary .sub (const 1) (const 1))
    let e' : Expr ℚ := binary .div (var "x") (binary .sub (const 1) (const 1))
    ((Expr.simplify 10 e).outcome = .error .divisionByZero ∧
      ∀ v, evaluate (.single "x" v) e = .error .divisionByZero) ∧
    (Expr.simplify 10 e').outcome = .error .divisionByZero ∧
      ∀ v, evaluate (.single "x" v) e' = .error .divisionByZero := by
  let _ := Exact.whole
  intro e e'
  obtain ⟨hdoubles, hfractions⟩ := simplify_divides_by_zero "x" 10
  have herror : (Expr.simplify 10 e).outcome = .error .divisionByZero := rfl
  have herror' : (Expr.simplify 10 e').outcome = .error .divisionByZero := by
    have hfails : (match (Expr.simplify 10 e').outcome with
      | .error .divisionByZero => true
      | _ => false) = true := by decide +kernel
    split at hfails
    · assumption
    · cases hfails
  have he : Fractional "x" e := .binary rfl .var (.binary rfl (.const 1) (.const 1))
  have he' : Fractional "x" e' := .binary rfl .var (.binary rfl (.const 1) (.const 1))
  refine ⟨⟨herror, ?_⟩, herror', hfractions e' he' herror'⟩
  have hfree : EveryNode (DividesWithout "x") e := by
    simp [EveryNode, e, depthFirst, DividesWithout, mentions]
  refine (hdoubles e he hfree herror).resolve_right ?_
  rintro ⟨C, hC, hzero, -⟩
  change Nest (binary .div (var "x") (binary .sub (const 1) (const 1))) C at hC
  cases hC with
  | left hop _ | right hop _ => exact hop rfl
  | div hv _ =>
      cases hv
      cases hzero _ (Multiset.mem_cons_self _ _)

set_option maxRecDepth 8000 in
/-- Two divisors of which neither is zero, but their product is: the quotient has the value zero at
zero, and simplifying it divides by zero. -/
theorem simplify_divides_by_vanished_product :
    let e : Expr Float := binary .div (binary .div (var "x") (const 1e-200)) (const 1e-200)
    Fractional "x" e ∧ (Expr.simplify 10 e).outcome = .error .divisionByZero ∧
      evaluate (.single "x" 0) e = .ok (.number 0) :=
  ⟨.binary rfl (.binary rfl .var (.const _)) (.const _), rfl, rfl⟩

end Expr
end EquationEngine
