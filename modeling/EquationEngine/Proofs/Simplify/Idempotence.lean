import EquationEngine.Proofs.Double.Settled

/-!
Simplification of doubles is idempotent where it converged.

A completed simplification ends in a normal tree, and a normal tree without a NaN is given back at
the first attempt. A NaN is left out because it differs from itself: a loop also ends where a sweep
hands one on untouched, as in `x * NaN`, but then no two results of it are equal.
-/

namespace EquationEngine.Expr

open Arithmetic

/-- If no loop of a simplification stopped at the bound and its result holds no NaN, simplifying
the result again gives an equal tree, and again no loop stops at the bound. That the constants of
the tree are stored ones, without a negative zero, is how constants are always made. -/
theorem simplify_idempotent {limit : Int} (hlimit : 1 ≤ limit) {t r : Expr Float}
    (ht : t.Settled) (hr : (simplify limit t).outcome = .ok r)
    (hbound : (simplify limit t).hitBound = false)
    (hnan : r.EveryConst fun v => v.isNaN = false) :
    ∃ r', (simplify limit r).outcome = .ok r' ∧ (r' == r) = true ∧
      (simplify limit r).hitBound = false := by
  have hself : r.EveryConst fun v => (v == v) = true :=
    hnan.mono fun v hv => Double.beq_self_of_not_isNaN hv
  have hnormal : Normal r := normal_of_simplify ht ⟨hr, hbound⟩
  obtain ⟨hagain, hfree⟩ := hnormal.simplify hlimit hself
  exact ⟨r, hagain, beq_self hself, hfree⟩

set_option maxRecDepth 8000 in
/-- `|2 - (x + 5)|` becomes `|-x - 3|`, and this is where simplification stays. -/
theorem simplify_idempotent_abs :
    let t : Expr Float := unary .abs (binary .sub (integer 2) (binary .add (var "x") (integer 5)))
    let r : Expr Float := unary .abs (binary .sub (unary .neg (var "x")) (integer 3))
    (simplify 5 t).outcome = .ok r ∧ (simplify 5 t).hitBound = false ∧
      ∃ r', (simplify 5 r).outcome = .ok r' ∧ (r' == r) = true ∧
        (simplify 5 r).hitBound = false := by
  intro t r
  have ht : t.Settled := ⟨⟨_, rfl⟩, trivial, _, rfl⟩
  have hr : (simplify 5 t).outcome = .ok r := rfl
  have hbound : (simplify 5 t).hitBound = false := by decide +kernel
  have hthree : (settle (ofInt 3 : Float)).isNaN = false := by decide +kernel
  exact ⟨hr, hbound, simplify_idempotent (by decide) ht hr hbound ⟨trivial, hthree⟩⟩

set_option maxRecDepth 8000 in
/-- A sweep hands the constant of `x * NaN` on and the loop ends; it stores that of `x + NaN` anew,
and this loop goes on to its bound. -/
example :
    (simplify 9 (binary .mul (var "x") (const (0 / 0 : Float)))).events = [.fixedPoint 1] ∧
      (simplify 9 (binary .add (var "x") (const (0 / 0 : Float)))).events =
        [.iterationsExhausted 9] := by
  decide +kernel

end EquationEngine.Expr
