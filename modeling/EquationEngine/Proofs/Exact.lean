import Mathlib.Algebra.Order.Ring.Rat
import Mathlib.Data.List.Basic
import EquationEngine.Expr.Basic
import EquationEngine.Proofs.Expr.Basic

/-!
Exact fractions as a number type of the engine.

The four operations, comparison and absolute value are those of the rational numbers. Powers,
logarithms and exponentials leave the rational numbers, so they are read as partial functions about
which only a few laws of powers are known, and every statement over `Exact` holds for every such
reading. How a number is written is left open as well.
-/

namespace EquationEngine

open Arithmetic

/-- A reading of powers, logarithms and exponentials as partial functions on the rationals, and a
way to write rationals down. -/
class Exact where
  pow : ℚ → ℚ → Except Fault ℚ
  log : ℚ → Option ℚ
  exp : ℚ → Option ℚ
  text : ℚ → String
  fullText : ℚ → String
  pow_zero (x : ℚ) : pow x 0 = .ok 1
  pow_one (x : ℚ) : pow x 1 = .ok x
  pow_two (x : ℚ) : pow x 2 = .ok (x * x)
  one_pow (c : ℚ) : pow 1 c = .ok 1
  /-- Zero to any other power than zero is zero or nothing. -/
  zero_pow {c v : ℚ} : c ≠ 0 → pow 0 c = .ok v → v = 0

namespace Exact

instance [Exact] : Arithmetic ℚ where
  toAdd := inferInstance
  toSub := inferInstance
  toMul := inferInstance
  toDiv := inferInstance
  toNeg := inferInstance
  toBEq := instBEqOfDecidableEq
  ofInt n := n
  ofDecimal digits places := digits / 10 ^ places
  abs x := |x|
  lt x y := x < y
  le x y := x ≤ y
  isFinite _ := true
  isInteger x := x.den == 1
  isEven x := x.num % 2 == 0
  pow x y := (Exact.pow x y).toOption.getD 0
  rem x y := x - y * (x / y).num.tdiv (x / y).den
  log x := (Exact.log x).getD 0
  exp x := (Exact.exp x).getD 0
  powFault x y :=
    match Exact.pow x y with
    | .ok _ => none
    | .error fault => some fault
  remFault _ _ := none
  logFault x := if (Exact.log x).isSome then none else some .undefined
  expFault x := if (Exact.exp x).isSome then none else some .overflow
  text := Exact.text
  fullText := Exact.fullText

section Laws

variable [Exact]

@[simp] theorem ofInt_eq (n : Int) : (ofInt n : ℚ) = n := rfl

@[simp] theorem zero_eq : (zero : ℚ) = 0 := by simp [zero]

@[simp] theorem one_eq : (one : ℚ) = 1 := by simp [one]

@[simp] theorem settle_eq (x : ℚ) : settle x = x := by
  rw [settle, zero_eq, add_zero]

@[simp] theorem beq_iff (x y : ℚ) : (x == y) = true ↔ x = y := decide_eq_true_iff

@[simp] theorem isZero_iff (x : ℚ) : isZero x = true ↔ x = 0 := by
  rw [isZero, beq_iff, zero_eq]

@[simp] theorem isOne_iff (x : ℚ) : isOne x = true ↔ x = 1 := by
  rw [isOne, beq_iff, one_eq]

@[simp] theorem lt_iff (x y : ℚ) : Arithmetic.lt x y = true ↔ x < y := decide_eq_true_iff

@[simp] theorem abs_eq (x : ℚ) : Arithmetic.abs x = |x| := rfl

@[simp] theorem number_eq (x : ℚ) : Expr.number x = .const x := by
  rw [Expr.number, settle_eq]

@[simp] theorem integer_eq (n : Int) : Expr.integer n = .const (n : ℚ) := by
  rw [Expr.integer, number_eq, ofInt_eq]

/-- Trees of fractions that compare equal are equal. -/
theorem eq_of_beq {s t : Expr ℚ} (h : (s == t) = true) : s = t := by
  refine Expr.eq_of_beq (p := fun _ => True) (fun u v _ _ huv => (beq_iff u v).1 huv) ?_ ?_ h
  · exact Expr.everyConst_of_forall fun _ => trivial
  · exact Expr.everyConst_of_forall fun _ => trivial

/-! What the operators compute. -/

theorem apply_div_iff {x y v : ℚ} : BinaryOp.div.apply x y = .ok v ↔ y ≠ 0 ∧ v = x / y := by
  unfold BinaryOp.apply
  by_cases hy : y = 0
  · simp [hy]
  · simp only [isZero_iff, hy, if_false, Except.ok.injEq, ne_eq, not_false_eq_true, true_and]
    exact eq_comm

theorem apply_pow_iff {x c v : ℚ} : BinaryOp.pow.apply x c = .ok v ↔ Exact.pow x c = .ok v := by
  cases h : Exact.pow x c with
  | ok w => simp [BinaryOp.apply, Arithmetic.powFault, Arithmetic.pow, h, Except.toOption]
  | error fault => cases fault <;> simp [BinaryOp.apply, Arithmetic.powFault, h]

theorem apply_mod_iff {x y v : ℚ} : BinaryOp.mod.apply x y = .ok v ↔ y ≠ 0 ∧ v = rem x y := by
  by_cases hy : y = 0
  · simp [BinaryOp.apply, hy]
  · simp only [BinaryOp.apply, isZero_iff, hy, if_false, Arithmetic.remFault, Except.ok.injEq,
      ne_eq, not_false_eq_true, true_and]
    exact eq_comm

theorem rem_eq (x y : ℚ) : rem x y = x - y * (x / y).num.tdiv (x / y).den := rfl

theorem rem_zero (y : ℚ) : rem (0 : ℚ) y = 0 := by
  simp [rem_eq]

/-- Dividing by one leaves no remainder exactly if there is no fraction. -/
theorem rem_one_eq_zero_iff {x : ℚ} : rem x 1 = 0 ↔ x.den = 1 := by
  rw [rem_eq, div_one, one_mul, sub_eq_zero]
  constructor
  · intro h
    rw [h, Rat.den_intCast]
  · intro h
    rw [h, Nat.cast_one, Int.tdiv_one, (Rat.den_eq_one_iff x).1 h]

/-- A number and its negation leave no remainder by one another. -/
theorem rem_signs {u : ℚ} (hu : u ≠ 0) (s t : Sign) :
    rem ((s.toInt : ℚ) * u) (t.toInt * u) = 0 := by
  have hself : u / u = 1 := div_self hu
  cases s <;> cases t <;> rw [rem_eq]
  case plus.plus => simp [Sign.toInt, hself]
  case plus.minus =>
    have hquotient : u / -u = -1 := by rw [div_neg, hself]
    simp [Sign.toInt, hquotient]
  case minus.plus =>
    have hquotient : -u / u = -1 := by rw [neg_div, hself]
    simp [Sign.toInt, hquotient]
  case minus.minus =>
    have hquotient : -u / -u = 1 := by rw [neg_div_neg_eq, hself]
    simp [Sign.toInt, hquotient]

end Laws

/-! A concrete reading: whole exponents, and the few other values that are rational at sight. -/

/-- A fraction as numerator and denominator. -/
def written (x : ℚ) : String :=
  String.ofList ((if x.num < 0 then ['-'] else []) ++ Nat.toDigits 10 x.num.natAbs ++
    '/' :: Nat.toDigits 10 x.den)

theorem toDigits_injective : Function.Injective (Nat.toDigits 10) := by
  intro n m h
  rw [← @Nat.ofDigitChars_ten_toDigits n, h, Nat.ofDigitChars_ten_toDigits]

theorem not_mem_toDigits {c : Char} (hc : c.isDigit = false) (n : ℕ) :
    c ∉ Nat.toDigits 10 n := by
  intro h
  rw [Nat.isDigit_of_mem_toDigits (by decide) (by decide) h] at hc
  cases hc

theorem written_injective : Function.Injective written := by
  intro x y h
  have hlist := congrArg String.toList h
  simp only [written, String.toList_ofList] at hlist
  have hslash : '/' ∉ (if x.num < 0 then ['-'] else []) ++ Nat.toDigits 10 x.num.natAbs := by
    split <;> simp [not_mem_toDigits]
  obtain ⟨hnum, -, hden⟩ :=
    (List.append_cons_inj_of_notMem hslash (not_mem_toDigits rfl _)).1 hlist
  have hfirst (n m : ℕ) : '-' :: Nat.toDigits 10 n ≠ Nat.toDigits 10 m := by
    intro heq
    exact not_mem_toDigits rfl m (heq ▸ List.mem_cons_self)
  have hnums : x.num = y.num := by
    split_ifs at hnum with hx hy hy
    · have habs := toDigits_injective (List.cons.inj hnum).2
      omega
    · exact absurd hnum (hfirst _ _)
    · exact absurd hnum.symm (hfirst _ _)
    · have habs := toDigits_injective hnum
      omega
  exact Rat.ext hnums (toDigits_injective hden)

/-- A power with a whole exponent, or of zero or one. -/
def wholePow (x c : ℚ) : Except Fault ℚ :=
  if x = 0 ∧ c < 0 then .error .undefined
  else if c.den = 1 then .ok (x ^ c.num)
  else if x = 0 ∨ x = 1 then .ok x
  else .error .undefined

/-- Powers with whole exponents, the logarithm of one and the exponential of zero. -/
@[reducible] def whole : Exact where
  pow := wholePow
  log x := if x = 1 then some 0 else none
  exp x := if x = 0 then some 1 else none
  text := written
  fullText := written
  pow_zero x := by simp [wholePow]
  pow_one x := by simp [wholePow]
  pow_two x := by
    have htwo : ¬(2 : ℚ) < 0 := by decide
    simpa [wholePow, htwo] using zpow_two x
  one_pow c := by simp [wholePow]
  zero_pow {c v} hc hv := by
    have hnum : c.num ≠ 0 := Rat.num_ne_zero.2 hc
    simp only [wholePow, true_and, true_or, if_true, zero_zpow _ hnum, ite_self] at hv
    split_ifs at hv
    exact (Except.ok.inj hv).symm

end Exact

end EquationEngine
