import Mathlib.Tactic.FieldSimp
import Mathlib.Tactic.Ring
import EquationEngine.Simplify.Identity
import EquationEngine.Expr.Eval
import EquationEngine.Proofs.Exact
import EquationEngine.Proofs.Run
import EquationEngine.Proofs.Simplify.Shape

/-!
What identity elimination does to values in exact arithmetic.

A rule looks at constants and bare variables only, so it is read under any judgement about values
that has the rules of evaluation for them. All rules keep the value but two: the remainder of a
fraction by the constant one is replaced by zero, and so is the constant zero under an exponent
that is zero without being a constant. Operands of this kind are called degenerate.
-/

namespace EquationEngine.Expr

open Arithmetic

variable [Exact] {env : Assignment ℚ} {J : Expr ℚ → ℚ → Prop}

/-- A judgement about values that follows evaluation at constants, variables, operators over one
operand and the four operations. -/
structure Reading (env : Assignment ℚ) (J : Expr ℚ → ℚ → Prop) : Prop where
  const_iff {c v : ℚ} : J (const c) v ↔ v = c
  var_iff {x : String} {v : ℚ} : J (var x) v ↔ env x = some v
  unary_iff {op : UnaryOp} {e : Expr ℚ} {v : ℚ} :
    J (unary op e) v ↔ ∃ x, J e x ∧ op.apply x = .ok v
  add {a b : Expr ℚ} {x y : ℚ} : J a x → J b y → J (binary .add a b) (x + y)
  sub {a b : Expr ℚ} {x y : ℚ} : J a x → J b y → J (binary .sub a b) (x - y)
  mul {a b : Expr ℚ} {x y : ℚ} : J a x → J b y → J (binary .mul a b) (x * y)
  div {a b : Expr ℚ} {x y : ℚ} : J a x → J b y → y ≠ 0 → J (binary .div a b) (x / y)

/-- Operands with the values `x` and `y` at which a rule changes the value of an operator. -/
def Degenerate : BinaryOp → Expr ℚ → Expr ℚ → ℚ → ℚ → Prop
  | .pow, a, b, _, y => isInt 0 a = true ∧ isInt 0 b = false ∧ y = 0
  | .mod, _, b, x, _ => isInt 1 b = true ∧ x.den ≠ 1
  | _, _, _, _, _ => False

namespace Reading

omit [Exact] in
theorem of_eq {e : Expr ℚ} {v w : ℚ} (h : J e v) (hvw : v = w) : J e w :=
  hvw ▸ h

theorem number (hJ : Reading env J) (v : ℚ) : J (Expr.number v) v := by
  rw [Exact.number_eq, hJ.const_iff]

theorem integer_iff (hJ : Reading env J) {n : Int} {v : ℚ} : J (Expr.integer n) v ↔ v = n := by
  rw [Exact.integer_eq, hJ.const_iff]

theorem integer (hJ : Reading env J) (n : Int) {v : ℚ} (hv : v = n) : J (Expr.integer n) v :=
  hJ.integer_iff.2 hv

theorem neg_iff (hJ : Reading env J) {e : Expr ℚ} {v : ℚ} : J (unary .neg e) v ↔ J e (-v) := by
  rw [hJ.unary_iff]
  constructor
  · rintro ⟨x, hx, hv⟩
    rwa [← Except.ok.inj hv, neg_neg]
  · intro h
    exact ⟨-v, h, congrArg Except.ok (neg_neg v)⟩

theorem apply (hJ : Reading env J) {op : UnaryOp} {e : Expr ℚ} {x v : ℚ} (h : J e x)
    (hv : op.apply x = .ok v) : J (Expr.apply op e) v := by
  fun_induction Expr.apply op e generalizing x v with
  | case1 e =>
      obtain rfl := Except.ok.inj hv
      exact hJ.neg_iff.1 h
  | case2 e ih =>
      refine ih (hJ.neg_iff.1 h) ?_
      rw [← hv]
      exact congrArg Except.ok (abs_neg x)
  | case3 op e => exact hJ.unary_iff.2 ⟨x, h, hv⟩

theorem negate (hJ : Reading env J) {e : Expr ℚ} {v : ℚ} (h : J e v) : J (Expr.negate e) (-v) :=
  hJ.apply h rfl

theorem eq_of_constValue (hJ : Reading env J) {e : Expr ℚ} {v c : ℚ} (h : J e v)
    (hc : constValue? e = some c) : v = c := by
  fun_induction constValue? e generalizing v c with
  | case1 u =>
      rw [hJ.const_iff.1 h]
      exact Option.some.inj hc
  | case2 e ih =>
      obtain ⟨u, hu, rfl⟩ := Option.map_eq_some_iff.1 hc
      rw [← ih (hJ.neg_iff.1 h) hu, neg_neg]
  | case3 e ih =>
      obtain ⟨u, hu, rfl⟩ := Option.map_eq_some_iff.1 hc
      obtain ⟨x, hx, hv⟩ := hJ.unary_iff.1 h
      rw [← Except.ok.inj hv, ih hx hu]
  | case4 => cases hc

theorem eq_of_isInt (hJ : Reading env J) {n : Int} {e : Expr ℚ} {v : ℚ} (h : J e v)
    (hn : isInt n e = true) : v = n := by
  unfold isInt at hn
  split at hn
  · rename_i c hc
    rw [hJ.eq_of_constValue h hc]
    exact (Exact.beq_iff c n).1 hn
  · cases hn

theorem signedVariable (hJ : Reading env J) {e : Expr ℚ} {v : ℚ} {x : String} {s : Sign}
    (h : J e v) (hx : signedVariable? e = some (x, s)) :
    ∃ u, env x = some u ∧ v = s.toInt * u := by
  unfold signedVariable? at hx
  split at hx <;> cases hx
  · exact ⟨v, hJ.var_iff.1 h, by simp [Sign.toInt]⟩
  · exact ⟨-v, hJ.var_iff.1 (hJ.neg_iff.1 h), by simp [Sign.toInt]⟩

theorem sameVariable (hJ : Reading env J) {a b : Expr ℚ} {v w : ℚ} {x : String} {s t : Sign}
    (ha : J a v) (hb : J b w) (hx : sameVariable? a b = some (x, s, t)) :
    ∃ u, env x = some u ∧ v = s.toInt * u ∧ w = t.toInt * u := by
  unfold sameVariable? at hx
  split at hx
  · rename_i hleft hright
    split at hx <;> cases hx
    obtain ⟨u, hu, hv⟩ := hJ.signedVariable ha hleft
    obtain ⟨u', hu', hw⟩ := hJ.signedVariable hb hright
    subst x
    obtain rfl := Option.some.inj (hu.symm.trans hu')
    exact ⟨u, hu, hv, hw⟩
  · cases hx

theorem multiple (hJ : Reading env J) {x : String} {u : ℚ} (hx : env x = some u) (n : Int) :
    J (Expr.multiple n x) (n * u) := by
  have hvar : J (var x) u := hJ.var_iff.2 hx
  unfold Expr.multiple
  split_ifs with hzero hone hminus
  · exact hJ.integer 0 (by simp [hzero])
  · exact of_eq hvar (by simp [hone])
  · exact of_eq (hJ.negate hvar) (by simp [hminus])
  · exact hJ.mul (hJ.integer n rfl) hvar

/-! The rules of the single operators. -/

theorem dropInSum (hJ : Reading env J) {a b : Expr ℚ} {x y : ℚ} (ha : J a x) (hb : J b y) :
    J (Expr.dropInSum a b) (x + y) := by
  unfold Expr.dropInSum
  split_ifs with hzero hzero'
  · exact of_eq hb (by simp [hJ.eq_of_isInt ha hzero])
  · exact of_eq ha (by simp [hJ.eq_of_isInt hb hzero'])
  · split
    · rename_i hsame
      obtain ⟨u, hu, rfl, rfl⟩ := hJ.sameVariable ha hb hsame
      exact of_eq (hJ.multiple hu _) (by push_cast; ring)
    · exact hJ.add ha hb

theorem dropInDifference (hJ : Reading env J) {a b : Expr ℚ} {x y : ℚ} (ha : J a x) (hb : J b y) :
    J (Expr.dropInDifference a b) (x - y) := by
  unfold Expr.dropInDifference
  split_ifs with hzero hzero'
  · exact of_eq (hJ.negate hb) (by simp [hJ.eq_of_isInt ha hzero])
  · exact of_eq ha (by simp [hJ.eq_of_isInt hb hzero'])
  · split
    · rename_i hsame
      obtain ⟨u, hu, rfl, rfl⟩ := hJ.sameVariable ha hb hsame
      exact of_eq (hJ.multiple hu _) (by push_cast; ring)
    · exact hJ.sub ha hb

theorem dropInProduct (hJ : Reading env J)
    (hsquare : ∀ x u, env x = some u → J (binary .pow (var x) (Expr.integer 2)) (u * u))
    {a b : Expr ℚ} {x y : ℚ} (ha : J a x) (hb : J b y) : J (Expr.dropInProduct a b) (x * y) := by
  unfold Expr.dropInProduct
  split_ifs with hzero hone hone' hminus hminus'
  · obtain hzero | hzero := Bool.or_eq_true_iff.1 hzero
    · exact hJ.integer 0 (by simp [hJ.eq_of_isInt ha hzero])
    · exact hJ.integer 0 (by simp [hJ.eq_of_isInt hb hzero])
  · exact of_eq ha (by simp [hJ.eq_of_isInt hb hone])
  · exact of_eq hb (by simp [hJ.eq_of_isInt ha hone'])
  · exact of_eq (hJ.negate ha) (by simp [hJ.eq_of_isInt hb hminus])
  · exact of_eq (hJ.negate hb) (by simp [hJ.eq_of_isInt ha hminus'])
  · split
    · rename_i z s t hsame
      obtain ⟨u, hu, rfl, rfl⟩ := hJ.sameVariable ha hb hsame
      have hsq := hsquare z u hu
      cases s <;> cases t
      · exact of_eq hsq (by simp [Sign.toInt])
      · exact of_eq (hJ.negate hsq) (by simp [Sign.toInt])
      · exact of_eq (hJ.negate hsq) (by simp [Sign.toInt])
      · exact of_eq hsq (by simp [Sign.toInt])
    · exact hJ.mul ha hb

theorem dropInQuotient (hJ : Reading env J) {a b : Expr ℚ} {x y : ℚ} (ha : J a x) (hb : J b y)
    (hy : y ≠ 0) : ∃ r, Expr.dropInQuotient a b = .ok r ∧ J r (x / y) := by
  unfold Expr.dropInQuotient
  split_ifs with hzero hzero' hone hminus
  · exact absurd (hJ.eq_of_isInt hb hzero) (by simpa using hy)
  · exact ⟨_, rfl, hJ.integer 0 (by simp [hJ.eq_of_isInt ha hzero'])⟩
  · exact ⟨_, rfl, of_eq ha (by simp [hJ.eq_of_isInt hb hone])⟩
  · exact ⟨_, rfl, of_eq (hJ.negate ha) (by simp [hJ.eq_of_isInt hb hminus, div_neg])⟩
  · split
    · rename_i z s t hsame
      obtain ⟨u, hu, rfl, rfl⟩ := hJ.sameVariable ha hb hsame
      have hu0 : u ≠ 0 := right_ne_zero_of_mul hy
      refine ⟨_, rfl, hJ.integer _ ?_⟩
      cases s <;> cases t <;> simp [Sign.toInt, hu0]
    · rename_i z s c _ hsigned _
      obtain ⟨u, hu, rfl⟩ := hJ.signedVariable ha hsigned
      have hcoeff := hJ.div (hJ.integer s.toInt rfl) hb hy
      exact ⟨_, rfl, of_eq (hJ.mul hcoeff (hJ.var_iff.2 hu)) (by ring)⟩
    · exact ⟨_, rfl, hJ.div ha hb hy⟩

/-- Apart from degenerate operands, the rules of powers keep the value. -/
theorem dropInPower (hJ : Reading env J) {a b : Expr ℚ} {x y v : ℚ} (h : J (binary .pow a b) v)
    (ha : J a x) (hb : J b y) (hv : Exact.pow x y = .ok v) (hd : ¬Degenerate .pow a b x y) :
    J (Expr.dropInPower a b) v := by
  unfold Expr.dropInPower
  split_ifs with hzero hone hbase hbase'
  · rw [hJ.eq_of_isInt hb hzero, Int.cast_zero, Exact.pow_zero] at hv
    exact hJ.integer 1 (by simp [← Except.ok.inj hv])
  · rw [hJ.eq_of_isInt hb hone, Int.cast_one, Exact.pow_one] at hv
    exact of_eq ha (Except.ok.inj hv)
  · have hy : y ≠ 0 := fun hy => hd ⟨hbase, Bool.eq_false_iff.2 hzero, hy⟩
    rw [hJ.eq_of_isInt ha hbase, Int.cast_zero] at hv
    exact hJ.integer 0 (by simp [Exact.zero_pow hy hv])
  · rw [hJ.eq_of_isInt ha hbase', Int.cast_one, Exact.one_pow] at hv
    exact hJ.integer 1 (by simp [← Except.ok.inj hv])
  · exact h

/-- Apart from degenerate operands, the rules of remainders keep the value. -/
theorem dropInRemainder (hJ : Reading env J) {a b : Expr ℚ} {x y v : ℚ}
    (h : J (binary .mod a b) v) (ha : J a x) (hb : J b y) (hy : y ≠ 0) (hv : v = rem x y)
    (hd : ¬Degenerate .mod a b x y) : ∃ r, Expr.dropInRemainder a b = .ok r ∧ J r v := by
  unfold Expr.dropInRemainder
  split_ifs with hzero hrule
  · exact absurd (hJ.eq_of_isInt hb hzero) (by simpa using hy)
  · refine ⟨_, rfl, hJ.integer 0 ?_⟩
    simp only [Bool.or_eq_true] at hrule
    rw [hv, Int.cast_zero]
    obtain (hone | hzero') | hsame := hrule
    · have hx : x.den = 1 := by_contra fun hx => hd ⟨hone, hx⟩
      rw [hJ.eq_of_isInt hb hone, Int.cast_one, Exact.rem_one_eq_zero_iff]
      exact hx
    · rw [hJ.eq_of_isInt ha hzero', Int.cast_zero, Exact.rem_zero]
    · obtain ⟨⟨z, s, t⟩, hsame⟩ := Option.isSome_iff_exists.1 hsame
      obtain ⟨u, -, rfl, rfl⟩ := hJ.sameVariable ha hb hsame
      exact Exact.rem_signs (right_ne_zero_of_mul hy) s t
  · exact ⟨_, rfl, h⟩

/-- Apart from degenerate operands, every rule keeps the value. -/
theorem dropAtRoot (hJ : Reading env J)
    (hsquare : ∀ x u, env x = some u → J (binary .pow (var x) (Expr.integer 2)) (u * u))
    {op : BinaryOp} {a b : Expr ℚ} {x y v : ℚ} (h : J (binary op a b) v) (ha : J a x) (hb : J b y)
    (hv : op.apply x y = .ok v) (hd : ¬Degenerate op a b x y) :
    ∃ r, Expr.dropAtRoot op a b = .ok r ∧ J r v := by
  cases op with
  | add => exact ⟨_, rfl, of_eq (hJ.dropInSum ha hb) (Except.ok.inj hv)⟩
  | sub => exact ⟨_, rfl, of_eq (hJ.dropInDifference ha hb) (Except.ok.inj hv)⟩
  | mul => exact ⟨_, rfl, of_eq (hJ.dropInProduct hsquare ha hb) (Except.ok.inj hv)⟩
  | div =>
      obtain ⟨hy, rfl⟩ := Exact.apply_div_iff.1 hv
      exact hJ.dropInQuotient ha hb hy
  | pow => exact ⟨_, rfl, hJ.dropInPower h ha hb (Exact.apply_pow_iff.1 hv) hd⟩
  | mod =>
      obtain ⟨hy, hv⟩ := Exact.apply_mod_iff.1 hv
      exact hJ.dropInRemainder h ha hb hy hv hd

/-- Degenerate operands are replaced by zero, and zero is not what the operator gives. -/
theorem dropAtRoot_of_degenerate (hJ : Reading env J) {op : BinaryOp} {a b : Expr ℚ} {x y v : ℚ}
    (hb : J b y) (hv : op.apply x y = .ok v) (hd : Degenerate op a b x y) :
    Expr.dropAtRoot op a b = .ok (Expr.integer 0) ∧ v ≠ 0 := by
  cases op with
  | pow =>
      obtain ⟨hbase, hexp, rfl⟩ := hd
      have hone : isInt 1 b = false := by
        rw [Bool.eq_false_iff]
        intro hone
        simpa using hJ.eq_of_isInt hb hone
      rw [Exact.apply_pow_iff, Exact.pow_zero] at hv
      refine ⟨?_, ?_⟩
      · simp [Expr.dropAtRoot, Expr.dropInPower, hbase, hexp, hone]
      · simp [← Except.ok.inj hv]
  | mod =>
      obtain ⟨hone, hx⟩ := hd
      obtain rfl : y = 1 := by simpa using hJ.eq_of_isInt hb hone
      have hzero : isInt 0 b = false := by
        rw [Bool.eq_false_iff]
        intro hzero
        simpa using hJ.eq_of_isInt hb hzero
      refine ⟨?_, ?_⟩
      · simp [Expr.dropAtRoot, Expr.dropInRemainder, hzero, hone]
      · rw [(Exact.apply_mod_iff.1 hv).2, ne_eq, Exact.rem_one_eq_zero_iff]
        exact hx
  | _ => exact hd.elim

end Reading

/-! Identity elimination on trees of any kind. -/

theorem reading_eval (env : Assignment ℚ) : Reading env fun e v => eval env e = .ok v where
  const_iff := by
    intro c v
    rw [eval, Except.ok.injEq, eq_comm]
  var_iff := by
    intro x v
    rw [eval]
    cases env x <;> simp
  unary_iff := by
    intro op e v
    rw [eval, bind_eq_ok]
  add ha hb := by
    rw [eval, ha, hb]
    rfl
  sub ha hb := by
    rw [eval, ha, hb]
    rfl
  mul ha hb := by
    rw [eval, ha, hb]
    rfl
  div ha hb hy := by
    rw [eval, ha, hb]
    exact Exact.apply_div_iff.2 ⟨hy, rfl⟩

theorem eval_binary_iff {op : BinaryOp} {a b : Expr ℚ} {v : ℚ} : eval env (binary op a b) = .ok v ↔
    ∃ x y, eval env a = .ok x ∧ eval env b = .ok y ∧ op.apply x y = .ok v := by
  simp only [eval, bind_eq_ok, exists_and_left]

theorem eval_square {x : String} {u : ℚ} (hx : env x = some u) :
    eval env (binary .pow (var x) (integer 2)) = .ok (u * u) := by
  refine eval_binary_iff.2 ⟨u, 2, (reading_eval env).var_iff.2 hx, ?_, ?_⟩
  · exact (reading_eval env).integer 2 rfl
  · exact Exact.apply_pow_iff.2 (Exact.pow_two u)

/-- No rule that fires in a tree meets degenerate operands. -/
def Regular (env : Assignment ℚ) : Expr ℚ → Prop
  | unary _ e => Regular env e
  | binary op a b => Regular env a ∧ Regular env b ∧
      ∀ a' b' x y, dropIdentities a = .ok a' → dropIdentities b = .ok b' →
        eval env a = .ok x → eval env b = .ok y → ¬Degenerate op a' b' x y
  | _ => True

/-- One round over a node with operands that keep their values raises no error, and it keeps the
value of the node exactly if the rule at the node does not meet degenerate operands. -/
theorem dropIdentities_binary {op : BinaryOp} {a b a' b' : Expr ℚ} {v : ℚ}
    (hv : eval env (binary op a b) = .ok v) (hra : Regular env a) (hrb : Regular env b)
    (ha' : dropIdentities a = .ok a') (hb' : dropIdentities b = .ok b')
    (heva : eval env a' = eval env a) (hevb : eval env b' = eval env b) :
    ∃ r, dropIdentities (binary op a b) = .ok r ∧
      (eval env r = .ok v ↔ Regular env (binary op a b)) := by
  obtain ⟨x, y, ha, hb, hop⟩ := eval_binary_iff.1 hv
  rw [ha] at heva
  rw [hb] at hevb
  have hdrop {r : Expr ℚ} (hr : dropAtRoot op a' b' = .ok r) :
      dropIdentities (binary op a b) = .ok r :=
    bind_eq_ok.2 ⟨a', ha', bind_eq_ok.2 ⟨b', hb', hr⟩⟩
  by_cases hd : Degenerate op a' b' x y
  · obtain ⟨hr, hv0⟩ := (reading_eval env).dropAtRoot_of_degenerate hevb hop hd
    refine ⟨_, hdrop hr, ⟨fun h => ?_, fun h => absurd hd (h.2.2 a' b' x y ha' hb' ha hb)⟩⟩
    exact absurd ((reading_eval env).integer_iff.1 h) (by simpa using hv0)
  · have hnode : eval env (binary op a' b') = .ok v := eval_binary_iff.2 ⟨x, y, heva, hevb, hop⟩
    obtain ⟨r, hr, hval⟩ := (reading_eval env).dropAtRoot (fun _ _ => eval_square) hnode heva hevb
      hop hd
    refine ⟨r, hdrop hr, ⟨fun _ => ⟨hra, hrb, ?_⟩, fun _ => hval⟩⟩
    intro a'' b'' x' y' ha'' hb'' hx' hy'
    obtain rfl := Except.ok.inj (ha'.symm.trans ha'')
    obtain rfl := Except.ok.inj (hb'.symm.trans hb'')
    obtain rfl := Except.ok.inj (ha.symm.trans hx')
    obtain rfl := Except.ok.inj (hb.symm.trans hy')
    exact hd

/-- One round over a regular tree that has a value raises no error and keeps the value. -/
theorem dropIdentities_of_regular {e : Expr ℚ} {v : ℚ} (hv : eval env e = .ok v)
    (hr : Regular env e) : ∃ r, dropIdentities e = .ok r ∧ eval env r = .ok v := by
  fun_induction dropIdentities e generalizing v with
  | case1 op e ih =>
      obtain ⟨x, hx, hop⟩ := (reading_eval env).unary_iff.1 hv
      obtain ⟨r, he, hval⟩ := ih hx hr
      exact ⟨_, bind_eq_ok.2 ⟨r, he, rfl⟩, (reading_eval env).apply hval hop⟩
  | case2 op a b iha ihb =>
      obtain ⟨x, y, ha, hb, -⟩ := eval_binary_iff.1 hv
      obtain ⟨a', ha', heva⟩ := iha ha hr.1
      obtain ⟨b', hb', hevb⟩ := ihb hb hr.2.1
      obtain ⟨r, hdrop, hiff⟩ := dropIdentities_binary hv hr.1 hr.2.1 ha' hb' (heva.trans ha.symm)
        (hevb.trans hb.symm)
      exact ⟨r, hdrop, hiff.2 hr⟩
  | case3 e _ _ => exact ⟨e, rfl, hv⟩

end EquationEngine.Expr
