import Mathlib.Tactic.FieldSimp
import Mathlib.Tactic.Linarith
import Mathlib.Tactic.Ring
import EquationEngine.Simplify.Loop
import EquationEngine.Proofs.Expr.Denotes
import EquationEngine.Proofs.Simplify.Meaning.Identities

/-!
Constant folding, re-association and identity elimination preserve the value of a tree in exact
arithmetic.

Each pass takes a tree that has a value to a tree with the same value, and raises no error on it.
A rule may well give a value to a tree that had none (`x / x` becomes `1`), so the statements go
in one direction: from the tree before the pass to the tree after it. The errors a pass can raise
are divisions by a constant zero, which no tree with a value contains.
-/

namespace EquationEngine.Expr

open Arithmetic

variable [Exact] {E : Set ℚ} {env : Assignment ℚ}

namespace Denotes

theorem of_eq {e : Expr ℚ} {v w : ℚ} (h : Denotes E env e v) (hvw : v = w) : Denotes E env e w :=
  hvw ▸ h

theorem reading : Reading env (Denotes E env) where
  const_iff := const_iff
  var_iff := var_iff
  unary_iff := by
    intro op e v
    constructor
    · intro h
      cases h with
      | unary h hv => exact ⟨_, h, hv⟩
    · rintro ⟨x, h, hv⟩
      exact h.unary hv
  add := add
  sub := sub
  mul := mul
  div := div

theorem apply {op : UnaryOp} {e : Expr ℚ} {x v : ℚ} (h : Denotes E env e x)
    (hv : op.apply x = .ok v) : Denotes E env (Expr.apply op e) v :=
  reading.apply h hv

theorem negate {e : Expr ℚ} {v : ℚ} (h : Denotes E env e v) :
    Denotes E env (Expr.negate e) (-v) :=
  h.apply rfl

theorem eq_of_constValue {e : Expr ℚ} {v c : ℚ} (h : Denotes E env e v)
    (hc : constValue? e = some c) : v = c :=
  reading.eq_of_constValue h hc

/-! Constant folding. -/

theorem foldUnary {op : UnaryOp} {e : Expr ℚ} {x v : ℚ} (h : Denotes E env e x)
    (hv : op.apply x = .ok v) : Denotes E env (Expr.foldUnary op e) v := by
  unfold Expr.foldUnary
  split
  · split
    · rename_i c hc
      rw [h.eq_of_constValue hc] at hv
      exact Except.ok.inj hv ▸ number _
    · exact h.apply hv
  · split
    · rename_i c hc
      rw [h.eq_of_constValue hc] at hv
      exact Except.ok.inj hv ▸ number _
    · exact h.apply hv
  · exact h.apply hv

theorem foldBinary {op : BinaryOp} {a b : Expr ℚ} {v : ℚ} (h : Denotes E env (.binary op a b) v) :
    ∃ r, Expr.foldBinary op a b = .ok r ∧ Denotes E env r v := by
  unfold Expr.foldBinary
  split
  · rename_i x y hx hy
    obtain ⟨x', y', _, ha, hb, hv⟩ := binary_iff.1 h
    rw [ha.eq_of_constValue hx, hb.eq_of_constValue hy] at hv
    split
    · exact ⟨_, rfl, h⟩
    · simp only [hv]
      exact ⟨_, rfl, number v⟩
  · exact ⟨_, rfl, h⟩

theorem foldConstants {e : Expr ℚ} {v : ℚ} (h : Denotes E env e v) :
    ∃ r, Expr.foldConstants e = .ok r ∧ Denotes E env r v := by
  induction h with
  | unary _ hv ih =>
      obtain ⟨r, hr, h⟩ := ih
      exact ⟨_, bind_eq_ok.2 ⟨r, hr, rfl⟩, h.foldUnary hv⟩
  | @binary op a b x y v hop _ _ hv iha ihb =>
      obtain ⟨a', ha, iha⟩ := iha
      obtain ⟨b', hb, ihb⟩ := ihb
      have hop' : Allows E op b' x y := by
        refine hop.of_const ?_
        rintro c rfl
        exact (Except.ok.inj hb).symm
      obtain ⟨r, hr, h⟩ := (Denotes.binary hop' iha ihb hv).foldBinary
      exact ⟨r, bind_eq_ok.2 ⟨a', ha, bind_eq_ok.2 ⟨b', hb, hr⟩⟩, h⟩
  | polynomial _ ih => exact ih
  | const v => exact ⟨_, rfl, .const v⟩
  | var hx => exact ⟨_, rfl, .var hx⟩
  | nary hes _ => exact ⟨_, rfl, .nary hes⟩

/-! Re-association. -/

theorem offset {e : Expr ℚ} {v : ℚ} (h : Denotes E env e v) (k : ℚ) :
    Denotes E env (Expr.offset e k) (v + k) := by
  unfold Expr.offset
  split_ifs with hzero
  · rw [Exact.isZero_iff] at hzero
    exact h.of_eq (by rw [hzero, add_zero])
  · exact h.add (number k)
  · exact (h.sub (number (-k))).of_eq (sub_neg_eq_add v k)

theorem scaled {e : Expr ℚ} {v : ℚ} (h : Denotes E env e v) (k : ℚ) :
    Denotes E env (Expr.scaled k e) (k * v) := by
  unfold Expr.scaled
  split_ifs with hzero hone
  · rw [Exact.isZero_iff] at hzero
    exact (integer 0).of_eq (by simp [hzero])
  · rw [Exact.isOne_iff] at hone
    exact h.of_eq (by rw [hone, one_mul])
  · exact (number k).mul h

theorem shared {e : Expr ℚ} {v : ℚ} (h : Denotes E env e v) (hv : v ≠ 0) (k : ℚ) :
    Denotes E env (Expr.shared k e) (k / v) := by
  unfold Expr.shared
  split_ifs with hzero
  · rw [Exact.isZero_iff] at hzero
    exact (integer 0).of_eq (by simp [hzero])
  · exact (number k).div h hv

theorem leading {s : Sign} {e : Expr ℚ} {v : ℚ} (h : Denotes E env e v) :
    Denotes E env (Expr.leading s e) (s.toInt * v) := by
  unfold Expr.leading
  split
  · exact h.of_eq (by simp [Sign.toInt])
  · rw [const_iff.1 h]
    exact (number _).of_eq (by simp [Sign.toInt])
  · exact h.negate.of_eq (by simp [Sign.toInt])

theorem flattenable {e r : Expr ℚ} {v : ℚ} (h : Denotes E env e v)
    (hr : flattenable? e = some r) : Denotes E env r v := by
  obtain ⟨op, a, b, rfl, hform⟩ | ⟨op, a, b, rfl, rfl⟩ := flattenable?_cases hr
  · have hin := neg_iff.1 h
    obtain ⟨rfl, rfl⟩ | ⟨rfl, rfl⟩ | ⟨rfl, rfl⟩ | ⟨rfl, rfl⟩ := hform
    · obtain ⟨x, y, ha, hb, hv⟩ := add_iff.1 hin
      exact (ha.leading.sub hb).of_eq (by simp [Sign.toInt]; linarith)
    · obtain ⟨x, y, ha, hb, hv⟩ := sub_iff.1 hin
      exact (ha.leading.add hb).of_eq (by simp [Sign.toInt]; linarith)
    · obtain ⟨x, y, ha, hb, hv⟩ := mul_iff.1 hin
      exact (ha.leading.mul hb).of_eq (by simp [Sign.toInt]; linarith)
    · obtain ⟨x, y, ha, hb, hy, hv⟩ := div_iff.1 hin
      exact (ha.leading.div hb hy).of_eq (by simp [Sign.toInt, neg_div]; linarith)
  · exact h

theorem sum_iff {minus : Bool} {a b : Expr ℚ} {v : ℚ} :
    Denotes E env (.binary (sumOp minus) a b) v ↔
      ∃ x y, Denotes E env a x ∧ Denotes E env b y ∧ v = if minus then x - y else x + y := by
  cases minus
  · exact add_iff
  · exact sub_iff

theorem addInto {minus : Bool} {a b r : Expr ℚ} {v k : ℚ}
    (h : Denotes E env (.binary (sumOp minus) a b) v)
    (hr : Expr.addInto minus a b k = some r) : Denotes E env r (v + k) := by
  obtain ⟨x, y, ha, hb, rfl⟩ := sum_iff.1 h
  unfold Expr.addInto at hr
  split at hr
  · obtain rfl := const_iff.1 ha
    cases minus <;> simp only [Bool.false_eq_true, if_true, if_false, Exact.isZero_iff] at hr ⊢ <;>
      split at hr <;> cases hr
    · exact hb.of_eq (by linarith)
    · exact ((number _).add hb).of_eq (by ring)
    · exact hb.negate.of_eq (by linarith)
    · exact ((number _).sub hb).of_eq (by ring)
  · obtain rfl := const_iff.1 hb
    cases hr
    cases minus
    · exact (ha.offset _).of_eq (by simp; ring)
    · exact (ha.offset _).of_eq (by simp; ring)
  · cases hr

theorem subtractFrom {minus : Bool} {a b r : Expr ℚ} {v k : ℚ}
    (h : Denotes E env (.binary (sumOp minus) a b) v)
    (hr : Expr.subtractFrom minus a b k = some r) : Denotes E env r (v - k) := by
  obtain ⟨x, y, ha, hb, rfl⟩ := sum_iff.1 h
  unfold Expr.subtractFrom at hr
  split at hr
  · obtain rfl := const_iff.1 ha
    have hrest : Denotes E env (if minus then Expr.negate b else b) (if minus then -y else y) := by
      cases minus
      · exact hb
      · exact hb.negate
    have hsum : (if minus then x - y else x + y) = x + (if minus then -y else y) := by
      cases minus <;> simp [sub_eq_add_neg]
    rw [hsum]
    generalize (if minus then Expr.negate b else b) = rest at hr hrest
    generalize (if minus then -y else y) = z at hrest ⊢
    simp only [Exact.isZero_iff] at hr
    split_ifs at hr <;> cases hr
    · exact hrest.of_eq (by linarith)
    · exact ((number _).add hrest).of_eq (by ring)
    · exact (hrest.sub (number _)).of_eq (by ring)
  · obtain rfl := const_iff.1 hb
    cases hr
    cases minus
    · exact (ha.offset _).of_eq (by simp; ring)
    · exact (ha.offset _).of_eq (by simp; ring)
  · cases hr

theorem subtractSum {minus : Bool} {a b r : Expr ℚ} {v k : ℚ}
    (h : Denotes E env (.binary (sumOp minus) a b) v)
    (hr : Expr.subtractSum k minus a b = some r) : Denotes E env r (k - v) := by
  obtain ⟨x, y, ha, hb, rfl⟩ := sum_iff.1 h
  unfold Expr.subtractSum at hr
  split at hr
  · obtain rfl := const_iff.1 ha
    cases minus <;> simp only [Bool.false_eq_true, if_true, if_false, Exact.isZero_iff] at hr ⊢ <;>
      split at hr <;> cases hr
    · exact hb.negate.of_eq (by linarith)
    · exact ((number _).sub hb).of_eq (by ring)
    · exact hb.of_eq (by linarith)
    · exact ((number _).add hb).of_eq (by ring)
  · obtain rfl := const_iff.1 hb
    cases minus <;> simp only [Bool.false_eq_true, if_true, if_false, Exact.isZero_iff] at hr ⊢ <;>
      split at hr <;> cases hr
    · exact ha.negate.of_eq (by linarith)
    · exact ((number _).sub ha).of_eq (by ring)
    · exact ha.negate.of_eq (by linarith)
    · exact ((number _).sub ha).of_eq (by ring)
  · cases hr

theorem timesConst {e : Expr ℚ} {v : ℚ} (h : Denotes E env e v) (k : ℚ) :
    Denotes E env (Expr.timesConst k e) (v * k) := by
  unfold Expr.timesConst
  split
  · rw [const_iff.1 h]
    exact number _
  · exact ((number k).mul h).of_eq (mul_comm k v)

theorem overConst {e : Expr ℚ} {v k : ℚ} (hk : k ≠ 0) (h : Denotes E env e v) :
    Denotes E env (Expr.overConst k e) (v / k) := by
  unfold Expr.overConst
  split
  · rw [const_iff.1 h]
    exact number _
  · exact h.div (number k) hk

theorem distributeFactor (minus : Bool) {a b : Expr ℚ} {v : ℚ} (k : ℚ)
    (h : Denotes E env (.binary (sumOp minus) a b) v) :
    Denotes E env (Expr.distributeFactor (sumOp minus) a b k) (v * k) := by
  unfold Expr.distributeFactor
  split_ifs with hzero
  · rw [Exact.isZero_iff] at hzero
    exact (integer 0).of_eq (by simp [hzero])
  · obtain ⟨x, y, ha, hb, rfl⟩ := sum_iff.1 h
    refine sum_iff.2 ⟨_, _, ha.timesConst k, hb.timesConst k, ?_⟩
    split
    · exact sub_mul x y k
    · exact add_mul x y k

theorem distributeDivisor (minus : Bool) {a b : Expr ℚ} {v k : ℚ} (hk : k ≠ 0)
    (h : Denotes E env (.binary (sumOp minus) a b) v) :
    ∃ r, Expr.distributeDivisor (sumOp minus) a b k = .ok r ∧ Denotes E env r (v / k) := by
  simp only [Expr.distributeDivisor, Exact.isZero_iff, hk, if_false]
  obtain ⟨x, y, ha, hb, rfl⟩ := sum_iff.1 h
  refine ⟨_, rfl, sum_iff.2 ⟨_, _, ha.overConst hk, hb.overConst hk, ?_⟩⟩
  split
  · exact sub_div x y k
  · exact add_div x y k

theorem addFractions {op : BinaryOp} {a b r : Expr ℚ} {v : ℚ}
    (h : Denotes E env (.binary op a b) v) (hr : addFractions? op a b = some r) :
    Denotes E env r v := by
  unfold addFractions? at hr
  split at hr
  · obtain ⟨x, y, hx, hy, rfl⟩ := add_iff.1 h
    obtain ⟨n, d, hn, hd, hd0, rfl⟩ := div_iff.1 hx
    obtain ⟨n', d', hn', hd', hd0', rfl⟩ := div_iff.1 hy
    split_ifs at hr with hconst hsame <;> cases hr
    · -- equal denominators have equal values
      rw [Exact.eq_of_beq hsame] at hd ⊢
      obtain rfl := hd.unique hd'
      exact ((hn.add hn').div hd hd0).of_eq (add_div n n' d)
    · refine (((hn.mul hd').add (hn'.mul hd)).div (hd.mul hd') (mul_ne_zero hd0 hd0')).of_eq ?_
      field_simp
  · cases hr

end Denotes

/-- A rule that may apply raises no error, and if it applies, its result has the value `v`. -/
def Yields (E : Set ℚ) (env : Assignment ℚ) (rule : Except Error (Option (Expr ℚ))) (v : ℚ) :
    Prop :=
  ∃ o, rule = .ok o ∧ ∀ r, o = some r → Denotes E env r v

namespace Yields

theorem none {v : ℚ} : Yields E env (.ok none) v := ⟨_, rfl, by simp⟩

theorem some {r : Expr ℚ} {v : ℚ} (h : Denotes E env r v) : Yields E env (.ok (some r)) v := by
  refine ⟨_, rfl, ?_⟩
  rintro _ ⟨⟩
  exact h

theorem scaleProduct {quotient : Bool} {a b : Expr ℚ} {v k : ℚ}
    (h : Denotes E env (binary (productOp quotient) a b) v) :
    Yields E env (Expr.scaleProduct quotient a b k) (v * k) := by
  unfold Expr.scaleProduct
  split
  · cases quotient
    · obtain ⟨x, y, ha, hb, rfl⟩ := Denotes.mul_iff.1 h
      obtain rfl := Denotes.const_iff.1 ha
      exact some ((hb.scaled _).of_eq (by ring))
    · obtain ⟨x, y, ha, hb, hy, rfl⟩ := Denotes.div_iff.1 h
      obtain rfl := Denotes.const_iff.1 ha
      exact some ((hb.shared hy _).of_eq (by ring))
  · cases quotient
    · obtain ⟨x, y, ha, hb, rfl⟩ := Denotes.mul_iff.1 h
      obtain rfl := Denotes.const_iff.1 hb
      exact some ((ha.scaled _).of_eq (by ring))
    · obtain ⟨x, y, ha, hb, hy, rfl⟩ := Denotes.div_iff.1 h
      obtain rfl := Denotes.const_iff.1 hb
      simp only [if_true, Exact.isZero_iff, hy, if_false]
      exact some ((ha.scaled _).of_eq (by ring))
  · exact none

theorem divideProduct {quotient : Bool} {a b : Expr ℚ} {v k : ℚ} (hk : k ≠ 0)
    (h : Denotes E env (binary (productOp quotient) a b) v) :
    Yields E env (Expr.divideProduct quotient a b k) (v / k) := by
  unfold Expr.divideProduct
  split
  · simp only [Exact.isZero_iff, hk, if_false]
    cases quotient
    · obtain ⟨x, y, ha, hb, rfl⟩ := Denotes.mul_iff.1 h
      obtain rfl := Denotes.const_iff.1 ha
      exact some ((hb.scaled _).of_eq (by ring))
    · obtain ⟨x, y, ha, hb, hy, rfl⟩ := Denotes.div_iff.1 h
      obtain rfl := Denotes.const_iff.1 ha
      exact some ((hb.shared hy _).of_eq (by ring))
  · cases quotient
    · obtain ⟨x, y, ha, hb, rfl⟩ := Denotes.mul_iff.1 h
      obtain rfl := Denotes.const_iff.1 hb
      simp only [Bool.false_eq_true, Exact.isZero_iff, hk, if_false]
      exact some ((ha.scaled _).of_eq (by ring))
    · obtain ⟨x, y, ha, hb, hy, rfl⟩ := Denotes.div_iff.1 h
      obtain rfl := Denotes.const_iff.1 hb
      have hyk : y * k ≠ 0 := mul_ne_zero hy hk
      simp only [if_true, Exact.isZero_iff, hyk, if_false, Exact.isOne_iff]
      split_ifs with hone
      · exact some (ha.of_eq (by rw [div_div, hone, div_one]))
      · exact some ((ha.div (.number _) hyk).of_eq (by rw [div_div]))
  · exact none

theorem divideByProduct {quotient : Bool} {a b : Expr ℚ} {v k : ℚ} (hv : v ≠ 0)
    (h : Denotes E env (binary (productOp quotient) a b) v) :
    Yields E env (Expr.divideByProduct k quotient a b) (k / v) := by
  unfold Expr.divideByProduct
  split
  · cases quotient
    · obtain ⟨x, y, ha, hb, rfl⟩ := Denotes.mul_iff.1 h
      obtain rfl := Denotes.const_iff.1 ha
      obtain ⟨hx, hy⟩ := mul_ne_zero_iff.1 hv
      simp only [Exact.isZero_iff, hx, if_false]
      exact some ((hb.shared hy _).of_eq (by rw [div_div]))
    · obtain ⟨x, y, ha, hb, hy, rfl⟩ := Denotes.div_iff.1 h
      obtain rfl := Denotes.const_iff.1 ha
      obtain ⟨hx, -⟩ := div_ne_zero_iff.1 hv
      simp only [Exact.isZero_iff, hx, if_false]
      exact some ((hb.scaled _).of_eq (by field_simp))
  · cases quotient
    · obtain ⟨x, y, ha, hb, rfl⟩ := Denotes.mul_iff.1 h
      obtain rfl := Denotes.const_iff.1 hb
      obtain ⟨hx, hy⟩ := mul_ne_zero_iff.1 hv
      simp only [Exact.isZero_iff, hy, if_false]
      exact some ((ha.shared hx _).of_eq (by simp; field_simp))
    · obtain ⟨x, y, ha, hb, hy, rfl⟩ := Denotes.div_iff.1 h
      obtain rfl := Denotes.const_iff.1 hb
      obtain ⟨hx, -⟩ := div_ne_zero_iff.1 hv
      simp only [Exact.isZero_iff, hy, if_false]
      exact some ((ha.shared hx _).of_eq (by simp; field_simp))
  · exact none

theorem reassociate {op : BinaryOp} {left right : Expr ℚ} {v : ℚ}
    (h : Denotes E env (binary op left right) v) :
    Yields E env (Expr.reassociate op left right) v := by
  have hrule := reassociation op left right
  generalize Expr.reassociate op left right = o at hrule
  cases hrule with
  | addInto =>
      obtain ⟨x, _, hx, ⟨⟩, rfl⟩ := Denotes.add_iff.1 h
      exact ⟨_, rfl, fun r hr => hx.addInto hr⟩
  | addIntoRight =>
      obtain ⟨_, x, ⟨⟩, hx, rfl⟩ := Denotes.add_iff.1 h
      exact ⟨_, rfl, fun r hr => (hx.addInto hr).of_eq (add_comm x _)⟩
  | subtractFrom =>
      obtain ⟨x, _, hx, ⟨⟩, rfl⟩ := Denotes.sub_iff.1 h
      exact ⟨_, rfl, fun r hr => hx.subtractFrom hr⟩
  | subtractSum =>
      obtain ⟨_, x, ⟨⟩, hx, rfl⟩ := Denotes.sub_iff.1 h
      exact ⟨_, rfl, fun r hr => hx.subtractSum hr⟩
  | scaleProduct =>
      obtain ⟨x, _, hx, ⟨⟩, rfl⟩ := Denotes.mul_iff.1 h
      exact scaleProduct hx
  | scaleProductRight =>
      obtain ⟨_, x, ⟨⟩, hx, rfl⟩ := Denotes.mul_iff.1 h
      exact mul_comm x _ ▸ scaleProduct hx
  | distributeFactor minus =>
      obtain ⟨x, _, hx, ⟨⟩, rfl⟩ := Denotes.mul_iff.1 h
      exact some (hx.distributeFactor minus _)
  | distributeFactorRight minus =>
      obtain ⟨_, x, ⟨⟩, hx, rfl⟩ := Denotes.mul_iff.1 h
      exact mul_comm x _ ▸ some (hx.distributeFactor minus _)
  | divideProduct =>
      obtain ⟨x, _, hx, ⟨⟩, hk, rfl⟩ := Denotes.div_iff.1 h
      exact divideProduct hk hx
  | divideByProduct =>
      obtain ⟨_, x, ⟨⟩, hx, hx0, rfl⟩ := Denotes.div_iff.1 h
      exact divideByProduct hx0 hx
  | distributeDivisor minus =>
      obtain ⟨x, _, hx, ⟨⟩, hk, rfl⟩ := Denotes.div_iff.1 h
      obtain ⟨r, hr, h⟩ := hx.distributeDivisor minus hk
      exact ⟨_, bind_eq_ok.2 ⟨r, hr, rfl⟩, fun _ heq => Option.some.inj heq ▸ h⟩
  | none => exact none

theorem flattenRoot {op : BinaryOp} {a b : Expr ℚ} {v : ℚ}
    (h : Denotes E env (binary op a b) v) : Yields E env (Expr.flattenRoot op a b) v := by
  obtain ⟨x, y, hop, ha, hb, hv⟩ := Denotes.binary_iff.1 h
  -- a constant operand is replaced by its value, which leaves an exponent as it is
  have hconst : ∀ c, constValue? b = Option.some c → Allows E op (number c) x y := by
    intro c hc
    refine hop.of_const ?_
    rintro d rfl
    rw [Exact.number_eq, Option.some.inj hc]
  unfold Expr.flattenRoot
  split
  · exact ⟨_, rfl, fun r hr => h.addFractions hr⟩
  · rename_i c d hc hd
    obtain rfl := ha.eq_of_constValue hc
    obtain rfl := hb.eq_of_constValue hd
    exact reassociate (.binary (hconst _ hd) (.number _) (.number _) hv)
  · rename_i c hc hopen
    obtain rfl := ha.eq_of_constValue hc
    split
    · rename_i right hright
      have hop' : Allows E op right x y := by
        refine hop.of_const ?_
        rintro d rfl
        cases hopen
      exact reassociate (.binary hop' (.number _) (hb.flattenable hright) hv)
    · exact none
  · rename_i d hopen hd
    obtain rfl := hb.eq_of_constValue hd
    split
    · rename_i left hleft
      exact reassociate (.binary (hconst _ hd) (ha.flattenable hleft) (.number _) hv)
    · exact none

end Yields

namespace Denotes

theorem flattenPeaks {e : Expr ℚ} {v : ℚ} (h : Denotes E env e v) :
    ∃ r, Expr.flattenPeaks e = .ok r ∧ Denotes E env r v := by
  induction h with
  | unary _ hv ih =>
      obtain ⟨r, hr, h⟩ := ih
      exact ⟨_, bind_eq_ok.2 ⟨r, hr, rfl⟩, h.apply hv⟩
  | @binary op a b x y v hop ha hb hv iha ihb =>
      obtain ⟨o, ho, hroot⟩ := Yields.flattenRoot (.binary hop ha hb hv)
      cases o with
      | some r => exact ⟨r, bind_eq_ok.2 ⟨_, ho, rfl⟩, hroot r rfl⟩
      | none =>
          obtain ⟨a', ha', iha⟩ := iha
          obtain ⟨b', hb', ihb⟩ := ihb
          have hop' : Allows E op b' x y := by
            refine hop.of_const ?_
            rintro c rfl
            exact (Except.ok.inj hb').symm
          refine ⟨.binary op a' b', bind_eq_ok.2 ⟨_, ho, ?_⟩, .binary hop' iha ihb hv⟩
          exact bind_eq_ok.2 ⟨a', ha', bind_eq_ok.2 ⟨b', hb', rfl⟩⟩
  | const v => exact ⟨_, rfl, .const v⟩
  | var hx => exact ⟨_, rfl, .var hx⟩
  | nary hes _ => exact ⟨_, rfl, .nary hes⟩
  | polynomial h _ => exact ⟨_, rfl, .polynomial h⟩

/-! Identity elimination. -/

theorem square (htwo : 2 ∈ E) {x : String} {u : ℚ} (hx : env x = some u) :
    Denotes E env (.binary .pow (.var x) (Expr.integer 2)) (u * u) := by
  refine pow_iff.2 ⟨2, htwo, ?_, u, .var hx, Exact.pow_two u⟩
  simp

/-- Operands that an operator is read with are not degenerate. -/
theorem not_degenerate {op : BinaryOp} {a b : Expr ℚ} {x y : ℚ} (hop : Allows E op b x y)
    (hb : Denotes E env b y) : ¬Degenerate op a b x y := by
  cases op with
  | pow =>
      rintro ⟨-, hzero, rfl⟩
      obtain ⟨c, -, rfl⟩ := hop
      obtain rfl := const_iff.1 hb
      exact absurd hzero (by simp [isInt, constValue?])
  | mod =>
      rintro ⟨hone, hx⟩
      exact hx (hop (by simpa using reading.eq_of_isInt hb hone))
  | _ => exact id

theorem dropAtRoot (htwo : 2 ∈ E) {op : BinaryOp} {a b : Expr ℚ} {v : ℚ}
    (h : Denotes E env (.binary op a b) v) :
    ∃ r, Expr.dropAtRoot op a b = .ok r ∧ Denotes E env r v := by
  obtain ⟨x, y, hop, ha, hb, hv⟩ := binary_iff.1 h
  exact reading.dropAtRoot (fun _ _ => square htwo) h ha hb hv (not_degenerate hop hb)

theorem dropIdentities (htwo : 2 ∈ E) {e : Expr ℚ} {v : ℚ} (h : Denotes E env e v) :
    ∃ r, Expr.dropIdentities e = .ok r ∧ Denotes E env r v := by
  induction h with
  | unary _ hv ih =>
      obtain ⟨r, hr, h⟩ := ih
      exact ⟨_, bind_eq_ok.2 ⟨r, hr, rfl⟩, h.apply hv⟩
  | @binary op a b x y v hop _ _ hv iha ihb =>
      obtain ⟨a', ha', iha⟩ := iha
      obtain ⟨b', hb', ihb⟩ := ihb
      have hop' : Allows E op b' x y := by
        refine hop.of_const ?_
        rintro c rfl
        exact (Except.ok.inj hb').symm
      obtain ⟨r, hr, h⟩ := (Denotes.binary hop' iha ihb hv).dropAtRoot htwo
      exact ⟨r, bind_eq_ok.2 ⟨a', ha', bind_eq_ok.2 ⟨b', hb', hr⟩⟩, h⟩
  | const v => exact ⟨_, rfl, .const v⟩
  | var hx => exact ⟨_, rfl, .var hx⟩
  | nary hes _ => exact ⟨_, rfl, .nary hes⟩
  | polynomial h _ => exact ⟨_, rfl, .polynomial h⟩

end Denotes

end EquationEngine.Expr
