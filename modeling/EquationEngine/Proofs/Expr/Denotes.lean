import EquationEngine.Expr.Eval
import EquationEngine.Proofs.Exact
import EquationEngine.Proofs.Run

/-!
The values of algebraic trees in exact arithmetic.

An algebraic tree has no equation and no remainder in it, and every exponent is a constant. The
judgement `Denotes E env e v` says that `e` is a tree without equations, with constant exponents
from `E` and without remainders of fractions by one, and that it has the value `v` under `env`. It
is what evaluation computes, read as a set of rules: one rule for each way to build a tree, which
an induction can follow and a case split can invert.
-/

namespace EquationEngine

open Arithmetic

variable [Exact] {E : Set ℚ} {env : Assignment ℚ}

/-- Two neighbouring operands of a flat sum or product joined. -/
def NaryOp.join : NaryOp → ℚ → ℚ → ℚ
  | sum => (· + ·)
  | product => (· * ·)

namespace Expr

/-- The right operands an operator may have: a power has a constant from `E`, and there are no
remainders. -/
def Admits (E : Set ℚ) : BinaryOp → Expr ℚ → Prop
  | .pow, b => ∃ c ∈ E, b = const c
  | .mod, _ => False
  | _, _ => True

/-- The right operands and the values of both operands with which an operator is read: a power has
a constant from `E`, and a remainder by one is one of a whole number. -/
def Allows (E : Set ℚ) : BinaryOp → Expr ℚ → ℚ → ℚ → Prop
  | .pow, b, _, _ => ∃ c ∈ E, b = const c
  | .mod, _, x, y => y = 1 → x.den = 1
  | _, _, _, _ => True

omit [Exact] in
theorem Admits.allows {op : BinaryOp} {b : Expr ℚ} (h : Admits E op b) (x y : ℚ) :
    Allows E op b x y := by
  cases op with
  | pow => exact h
  | mod => exact h.elim
  | _ => trivial

omit [Exact] in
/-- A right operand may be replaced by one that is the same where it is a constant. -/
theorem Allows.of_const {op : BinaryOp} {b b' : Expr ℚ} {x y : ℚ} (h : Allows E op b x y)
    (hb : ∀ c, b = const c → b' = b) : Allows E op b' x y := by
  cases op with
  | pow =>
      obtain ⟨c, hc, rfl⟩ := h
      exact ⟨c, hc, hb c rfl⟩
  | _ => exact h

/-- Trees without equations and remainders, in which every exponent is a constant from `E`. -/
inductive Algebraic (E : Set ℚ) : Expr ℚ → Prop
  | const (v : ℚ) : Algebraic E (const v)
  | var (x : String) : Algebraic E (var x)
  | unary {op : UnaryOp} {e : Expr ℚ} : Algebraic E e → Algebraic E (unary op e)
  | binary {op : BinaryOp} {a b : Expr ℚ} :
      Admits E op b → Algebraic E a → Algebraic E b → Algebraic E (binary op a b)
  | nary {op : NaryOp} {es : List (Expr ℚ)} : (∀ e ∈ es, Algebraic E e) → Algebraic E (nary op es)
  | polynomial {x : String} {e : Expr ℚ} : Algebraic E e → Algebraic E (polynomial x e)

/-- A tree with constant exponents from `E` has a value under an assignment. -/
inductive Denotes (E : Set ℚ) (env : Assignment ℚ) : Expr ℚ → ℚ → Prop
  | const (v : ℚ) : Denotes E env (const v) v
  | var {x : String} {v : ℚ} : env x = some v → Denotes E env (var x) v
  | unary {op : UnaryOp} {e : Expr ℚ} {x v : ℚ} :
      Denotes E env e x → op.apply x = .ok v → Denotes E env (unary op e) v
  | binary {op : BinaryOp} {a b : Expr ℚ} {x y v : ℚ} :
      Allows E op b x y → Denotes E env a x → Denotes E env b y → op.apply x y = .ok v →
      Denotes E env (binary op a b) v
  | nary {op : NaryOp} {es : List (Expr ℚ)} {f : Expr ℚ → ℚ} :
      (∀ e ∈ es, Denotes E env e (f e)) →
      Denotes E env (nary op es) ((es.map f).foldl op.join op.unit)
  | polynomial {x : String} {e : Expr ℚ} {v : ℚ} :
      Denotes E env e v → Denotes E env (polynomial x e) v

/-! The judgement and evaluation. -/

theorem apply_join (op : NaryOp) (x y : ℚ) : op.binary.apply x y = .ok (op.join x y) := by
  cases op <;> rfl

theorem join_unit (op : NaryOp) (x : ℚ) : op.join op.unit x = x := by
  cases op <;> simp [NaryOp.join, NaryOp.unit]

theorem evalAll_eq {op : NaryOp} {f : Expr ℚ → ℚ} {es : List (Expr ℚ)} (soFar : ℚ)
    (h : ∀ e ∈ es, eval env e = .ok (f e)) :
    evalAll env op.binary soFar es = .ok ((es.map f).foldl op.join soFar) := by
  induction es generalizing soFar with
  | nil => rfl
  | cons e es ih =>
      rw [List.forall_mem_cons] at h
      rw [evalAll, h.1]
      show (op.binary.apply soFar (f e) >>= fun y => evalAll env op.binary y es) = _
      rw [apply_join]
      exact ih _ h.2

theorem Denotes.eval_eq {e : Expr ℚ} {v : ℚ} (h : Denotes E env e v) : eval env e = .ok v := by
  induction h with
  | const v => rfl
  | var hx => rw [eval, hx]
  | unary _ hv ih =>
      rw [eval, ih]
      exact hv
  | binary _ _ _ hv iha ihb =>
      rw [eval, iha, ihb]
      exact hv
  | nary _ ih =>
      rw [eval]
      exact evalAll_eq _ ih
  | polynomial _ ih =>
      rw [eval]
      exact ih

theorem Denotes.unique {e : Expr ℚ} {v w : ℚ} (hv : Denotes E env e v) (hw : Denotes E env e w) :
    v = w :=
  Except.ok.inj (hv.eval_eq.symm.trans hw.eval_eq)

/-- The operands of a flat sum or product that has a value have values. -/
theorem eval_operands {op : BinaryOp} {soFar v : ℚ} {es : List (Expr ℚ)}
    (h : evalAll env op soFar es = .ok v) : ∀ e ∈ es, ∃ x, eval env e = .ok x := by
  induction es generalizing soFar with
  | nil => simp
  | cons e es ih =>
      rw [evalAll] at h
      obtain ⟨x, hx, h⟩ := bind_eq_ok.1 h
      obtain ⟨y, _, h⟩ := bind_eq_ok.1 h
      rw [List.forall_mem_cons]
      exact ⟨⟨x, hx⟩, ih h⟩

theorem Algebraic.denotes {e : Expr ℚ} (h : Algebraic E e) {v : ℚ} (hv : eval env e = .ok v) :
    Denotes E env e v := by
  induction h generalizing v with
  | const c =>
      cases hv
      exact .const c
  | var x =>
      rw [eval] at hv
      split at hv <;> cases hv
      exact .var ‹_›
  | unary _ ih =>
      rw [eval] at hv
      obtain ⟨x, hx, hv⟩ := bind_eq_ok.1 hv
      exact .unary (ih hx) hv
  | binary hop _ _ iha ihb =>
      rw [eval] at hv
      obtain ⟨x, hx, hv⟩ := bind_eq_ok.1 hv
      obtain ⟨y, hy, hv⟩ := bind_eq_ok.1 hv
      exact .binary (hop.allows x y) (iha hx) (ihb hy) hv
  | nary _ ih =>
      rw [eval] at hv
      choose! f hf using eval_operands hv
      rw [evalAll_eq _ hf] at hv
      obtain rfl := Except.ok.inj hv
      exact .nary fun e he => ih e he (hf e he)
  | polynomial _ ih =>
      rw [eval] at hv
      exact .polynomial (ih hv)

/-! The rules of the single operators, to build with and to take apart. -/

namespace Denotes

theorem number (v : ℚ) : Denotes E env (number v) v := by
  rw [Exact.number_eq]
  exact .const v

theorem integer (n : Int) : Denotes E env (integer n) n := number _

theorem neg {e : Expr ℚ} {v : ℚ} (h : Denotes E env e v) : Denotes E env (.unary .neg e) (-v) :=
  h.unary rfl

theorem add {a b : Expr ℚ} {x y : ℚ} (ha : Denotes E env a x) (hb : Denotes E env b y) :
    Denotes E env (.binary .add a b) (x + y) :=
  .binary trivial ha hb rfl

theorem sub {a b : Expr ℚ} {x y : ℚ} (ha : Denotes E env a x) (hb : Denotes E env b y) :
    Denotes E env (.binary .sub a b) (x - y) :=
  .binary trivial ha hb rfl

theorem mul {a b : Expr ℚ} {x y : ℚ} (ha : Denotes E env a x) (hb : Denotes E env b y) :
    Denotes E env (.binary .mul a b) (x * y) :=
  .binary trivial ha hb rfl

theorem div {a b : Expr ℚ} {x y : ℚ} (ha : Denotes E env a x) (hb : Denotes E env b y)
    (hy : y ≠ 0) : Denotes E env (.binary .div a b) (x / y) :=
  .binary trivial ha hb (Exact.apply_div_iff.2 ⟨hy, rfl⟩)

theorem const_iff {c v : ℚ} : Denotes E env (.const c) v ↔ v = c := by
  constructor
  · intro h
    cases h
    rfl
  · rintro rfl
    exact .const v

theorem var_iff {x : String} {v : ℚ} : Denotes E env (.var x) v ↔ env x = some v := by
  constructor
  · intro h
    cases h
    assumption
  · exact .var

theorem neg_iff {e : Expr ℚ} {v : ℚ} : Denotes E env (.unary .neg e) v ↔ Denotes E env e (-v) := by
  constructor
  · intro h
    cases h with
    | unary h hv =>
        obtain rfl := Except.ok.inj hv
        rwa [neg_neg]
  · intro h
    simpa using h.neg

theorem binary_iff {op : BinaryOp} {a b : Expr ℚ} {v : ℚ} : Denotes E env (.binary op a b) v ↔
    ∃ x y, Allows E op b x y ∧ Denotes E env a x ∧ Denotes E env b y ∧ op.apply x y = .ok v := by
  constructor
  · intro h
    cases h with
    | binary hop ha hb hv => exact ⟨_, _, hop, ha, hb, hv⟩
  · rintro ⟨x, y, hop, ha, hb, hv⟩
    exact .binary hop ha hb hv

theorem add_iff {a b : Expr ℚ} {v : ℚ} : Denotes E env (.binary .add a b) v ↔
    ∃ x y, Denotes E env a x ∧ Denotes E env b y ∧ v = x + y := by
  simp only [binary_iff, Allows, true_and, BinaryOp.apply, Except.ok.injEq, eq_comm (a := v)]

theorem sub_iff {a b : Expr ℚ} {v : ℚ} : Denotes E env (.binary .sub a b) v ↔
    ∃ x y, Denotes E env a x ∧ Denotes E env b y ∧ v = x - y := by
  simp only [binary_iff, Allows, true_and, BinaryOp.apply, Except.ok.injEq, eq_comm (a := v)]

theorem mul_iff {a b : Expr ℚ} {v : ℚ} : Denotes E env (.binary .mul a b) v ↔
    ∃ x y, Denotes E env a x ∧ Denotes E env b y ∧ v = x * y := by
  simp only [binary_iff, Allows, true_and, BinaryOp.apply, Except.ok.injEq, eq_comm (a := v)]

theorem div_iff {a b : Expr ℚ} {v : ℚ} : Denotes E env (.binary .div a b) v ↔
    ∃ x y, Denotes E env a x ∧ Denotes E env b y ∧ y ≠ 0 ∧ v = x / y := by
  simp only [binary_iff, Allows, true_and, Exact.apply_div_iff]

theorem pow_iff {a b : Expr ℚ} {v : ℚ} : Denotes E env (.binary .pow a b) v ↔
    ∃ c ∈ E, b = .const c ∧ ∃ x, Denotes E env a x ∧ Exact.pow x c = .ok v := by
  rw [binary_iff]
  constructor
  · rintro ⟨x, y, ⟨c, hc, rfl⟩, ha, hb, hv⟩
    obtain rfl := const_iff.1 hb
    exact ⟨_, hc, rfl, x, ha, Exact.apply_pow_iff.1 hv⟩
  · rintro ⟨c, hc, rfl, x, ha, hv⟩
    exact ⟨x, c, ⟨c, hc, rfl⟩, ha, .const c, Exact.apply_pow_iff.2 hv⟩

end Denotes

end Expr

end EquationEngine
