import EquationEngine.Expr.Eval
import EquationEngine.Solve
import EquationEngine.Proofs.Double.Reciprocal
import EquationEngine.Proofs.Simplify.Normal

/-!
Odd roots.

An odd power of the variable is undone by one root: the other side to the power of the reciprocal.
The reciprocal of an odd double from three on is a fraction, and a negative number has no power with
a fraction for exponent, though it has an odd root. Simplification keeps such a power as it stands,
so the search succeeds with a value that has none itself.
-/

namespace EquationEngine

open Arithmetic Double EquationEngine.Expr

namespace Expr

variable {c q : Float} {limit : Int} {x : String}

/-! Powers of constants. -/

/-- A power has no real value exactly if its base is negative, for a base other than zero and a
fractional exponent. -/
theorem powFault_undefined_iff (hc : c.isFinite = true) (hzero : isZero c = false)
    (hq : q.isFinite = true) (hint : toInt? q = none) :
    Arithmetic.powFault c q = some .undefined ↔ c < 0 := by
  have hzero : (c == 0) = false := hzero
  show Double.powFault c q = some .undefined ↔ c < 0
  unfold Double.powFault
  rw [hc, hq, hint, hzero]
  by_cases hneg : c < 0
  · simp [hneg]
  · simp only [hneg, decide_false, Bool.false_and, Bool.false_or, Bool.and_true, if_true,
      Bool.false_eq_true, if_false, iff_false]
    split <;> nofun

theorem not_neg_of_beq_one (h : (c == ofInt 1) = true) : ¬c < 0 := by
  have hone : parts (ofInt 1) = .finite .positive (2 ^ 52) (-52) (by decide) := rfl
  rw [lt_iff_compare]
  obtain heq | ⟨_, _, _, hzero⟩ := eq_or_zero_of_compare_eq (beq_iff_compare.1 h)
  · have hparts : parts c = parts (ofInt 1) := heq
    rw [hparts, hone]
    nofun
  · cases hone.symm.trans hzero

/-- What simplification makes of a power of constants: its value, or the power itself. The value of
a negative base is never found. -/
inductive IsRoot (c q : Float) : Expr Float → Prop
  | value (w : Float) : ¬c < 0 → IsRoot c q (const w)
  | kept : Normal (binary .pow (const c) (const q)) → IsRoot c q (binary .pow (const c) (const q))

theorem IsRoot.mentions {v : Expr Float} (h : IsRoot c q v) : v.mentions x = false := by
  cases h <;> rfl

/-- A root is not simplified further. -/
theorem IsRoot.simplify {v : Expr Float} (h : IsRoot c q v) (hlimit : 1 ≤ limit)
    (hc : (c == c) = true) (hq : (q == q) = true) :
    (v.simplifyConfigured limit).outcome = .ok v := by
  refine Run.outcome_bind.2 ⟨(), rfl, ?_⟩
  cases h with
  | value w _ => rfl
  | kept hnormal => exact (hnormal.simplify hlimit ⟨hc, hq⟩).1

/-- A root has no real value exactly if its radicand is negative. -/
theorem IsRoot.evaluate {v : Expr Float} (h : IsRoot c q v)
    (hfault : Arithmetic.powFault c q = some .undefined ↔ c < 0) (env : Assignment Float) :
    (∃ err, Expr.evaluate env v = .error err ∧ err.family = .domain) ↔ c < 0 := by
  cases h with
  | value w hneg =>
      refine iff_of_false ?_ hneg
      rintro ⟨err, herr, _⟩
      cases herr
  | kept _ =>
      rw [← hfault]
      have happly : Expr.evaluate env (binary .pow (const c) (const q)) =
          (BinaryOp.apply .pow c q).map .number := by
        cases hresult : BinaryOp.apply .pow c q <;>
          simp [Expr.evaluate, eval, hresult, bind, Except.bind, Except.map, pure, Except.pure]
      rw [happly, BinaryOp.apply]
      cases Arithmetic.powFault c q with
      | none => simp [Except.map]
      | some fault => cases fault <;> simp [Except.map, Error.family]

/-! Powers under a sweep. -/

/-- A power of a variable with a constant exponent other than zero and one is not changed. -/
theorem sweep_var_pow {n : Float} (hzero : (n == ofInt 0) = false) (hone : (n == ofInt 1) = false) :
    sweep (binary .pow (var x) (const n)) = .ok (.swept (binary .pow (var x) (const n))) := by
  simp [sweep, foldConstants, foldBinary, constValue?, flattenPeaks, flattenRoot, flattenable?,
    dropIdentities, dropAtRoot, dropInPower, isInt, collect, isConst, hzero, hone, bind,
    Except.bind, pure, Except.pure]

/-- Such a power is not simplified. -/
theorem simplify_var_pow {n : Float} (hlimit : 1 ≤ limit) (hself : (n == n) = true)
    (hzero : (n == ofInt 0) = false) (hone : (n == ofInt 1) = false) :
    ((binary .pow (var x) (const n)).simplifyConfigured limit).outcome =
      .ok (binary .pow (var x) (const n)) := by
  have hconst : EveryConst (fun v => (v == v) = true) (binary .pow (var x) (const n)) :=
    ⟨trivial, hself⟩
  exact Run.outcome_bind.2
    ⟨(), rfl, ((Normal.swept (sweep_var_pow hzero hone)).simplify hlimit hconst).1⟩

/-- A power of constants is replaced by its value if it has one. -/
theorem sweep_pow_of_none (h : Arithmetic.powFault c q = none) :
    sweep (binary .pow (const c) (const q)) = .ok (.constant (number (Arithmetic.pow c q))) := by
  simp [sweep, foldConstants, foldBinary, constValue?, BinaryOp.apply, h, isConst, number, bind,
    Except.bind, pure, Except.pure]

/-- A power of constants without value is kept, unless its base is one. -/
theorem sweep_pow_of_some {fault : Fault} (h : Arithmetic.powFault c q = some fault)
    (hzero : (q == ofInt 0) = false) (hone : (q == ofInt 1) = false)
    (hbase : (c == ofInt 0) = false) :
    sweep (binary .pow (const c) (const q)) = .ok (.swept
      (if c == ofInt 1 then integer 1 else binary .pow (const c) (const q))) := by
  have hfold : foldBinary .pow (const c) (const q) = .ok (binary .pow (const c) (const q)) := by
    cases fault <;> simp [foldBinary, constValue?, BinaryOp.apply, h, keepsPower]
  cases hunit : c == ofInt 1 <;>
    simp [sweep, foldConstants, hfold, flattenPeaks, flattenRoot, reassociate, constValue?,
      dropIdentities, dropAtRoot, dropInPower, isInt, collect, isConst, integer, number, hzero,
      hone, hbase, hunit, bind, Except.bind, pure, Except.pure]

/-- The loop over a power of constants ends in a root. -/
theorem iterate_pow (restart : Expr Float → Run (Expr Float)) {e : Expr Float}
    (hlimit : 1 ≤ limit) (he : foldConstants e = foldConstants (binary .pow (const c) (const q)))
    (hfault : Arithmetic.powFault c q = some .undefined ↔ c < 0) (hc : (c == c) = true)
    (hq : (q == q) = true) (hzero : (q == ofInt 0) = false) (hone : (q == ofInt 1) = false)
    (hbase : (c == ofInt 0) = false) :
    ∃ v, (iterate restart limit limit.toNat 0 e).outcome = .ok v ∧ IsRoot c q v := by
  obtain ⟨n, hn⟩ : ∃ n, limit.toNat = n + 1 := ⟨limit.toNat - 1, by omega⟩
  have hsweep := sweep_congr he
  rw [hn]
  -- the power has a value; or its base is one, and it is one; or it is kept, and found unchanged
  cases hvalue : Arithmetic.powFault c q with
  | none =>
      rw [sweep_pow_of_none hvalue] at hsweep
      refine ⟨number (Arithmetic.pow c q), ?_, .value _ fun hneg => ?_⟩
      · rw [iterate, Run.outcome_bind_of_ok (r := Run.lift (sweep e)) hsweep]
        rfl
      · cases hvalue.symm.trans (hfault.2 hneg)
  | some fault =>
      have hswept := sweep_pow_of_some hvalue hzero hone hbase
      cases hunit : c == ofInt 1 with
      | true =>
          rw [hswept, hunit, if_pos rfl] at hsweep
          refine ⟨integer 1, ?_, .value _ (not_neg_of_beq_one hunit)⟩
          rw [iterate, Run.outcome_bind_of_ok (r := Run.lift (sweep e)) hsweep]
          rfl
      | false =>
          rw [hunit, if_neg Bool.false_ne_true] at hswept
          rw [hswept] at hsweep
          refine ⟨binary .pow (const c) (const q), ?_, .kept (.swept hswept)⟩
          have hself : EveryConst (fun v => (v == v) = true) (binary .pow (const c) (const q)) :=
            ⟨hc, hq⟩
          rw [iterate, Run.outcome_bind_of_ok (r := Run.lift (sweep e)) hsweep]
          dsimp only
          split_ifs with hsame hbinary
          · rfl
          · exact iterate_of_swept n 1 hself hswept
          · exact absurd rfl hbinary

end Expr

/-! The search. -/

namespace Solver

/-- A bare variable is isolated, with the simplified other side for its value. -/
theorem search_bare {v : Expr Float} (hv : (v.simplifyConfigured limit).outcome = .ok v)
    (hfree : v.mentions x = false) (maxDepth : Int) (n : Nat) :
    (search ⟨x, maxDepth⟩ limit (n + 1) (.var x) v).outcome = .ok (.single v) := by
  have hvar : ((Expr.var x : Expr Float).simplifyConfigured limit).outcome = .ok (.var x) := rfl
  have hholds : (Expr.var x : Expr Float).mentions x = true := by simp [mentions]
  rw [search, Run.outcome_bind_of_ok hvar, Run.outcome_bind_of_ok hv, hholds, hfree]
  rfl

/-- An odd power is undone by one root. -/
theorem invertPower_odd {deeper : Search Float} {n : Float} {k : Int} (hn : toInt? n = some k)
    (hodd : k % 2 = 1) {base other root : Expr Float}
    (hroot : ((rootOf other (.const n)).simplifyConfigured limit).outcome = .ok root) :
    (invertPower deeper limit base (.const n) other).outcome = (deeper base root).outcome := by
  have hint : Arithmetic.isEven n = false := by
    show (toInt? n).any (· % 2 == 0) = false
    simp [hn, hodd]
  have hsingle : isEvenInteger (.const n) = false := by rw [isEvenInteger, hint, Bool.and_false]
  rw [invertPower, Run.outcome_bind_of_ok hroot, hsingle]
  rfl

end Solver

namespace Expr

theorem isNaN_of_toInt? {k : Int} (h : toInt? q = some k) : q.isNaN = false := by
  show (parts q).isNaN = false
  cases hparts : parts q with
  | notANumber =>
      rw [toInt?, toBinary?_eq, hparts] at h
      cases h
  | _ => rfl

/-- The reciprocal of an odd double from three on is finite and not whole. -/
theorem reciprocal_fractional {n : Float} {k : Int} (hn : toInt? n = some k) (hodd : k % 2 = 1)
    (hthree : 3 ≤ k) : (1 / n).isFinite = true ∧ toInt? (1 / n) = none := by
  obtain ⟨m, e, hm, hparts, hlt⟩ := parts_one_div hn hodd hthree
  refine ⟨?_, toInt?_of_lt_one hparts hlt⟩
  show (parts (1 / n)).isFinite = true
  rw [hparts]
  rfl

theorem toInt?_zero : toInt? (ofInt 0 : Float) = some 0 := by decide +kernel

theorem toInt?_one : toInt? (ofInt 1 : Float) = some 1 := by decide +kernel

/-- A double is not an integer unless that is its value. -/
theorem beq_ofInt_eq_false {k : Int} (hk : toInt? (ofInt k : Float) = some k)
    (h : toInt? q ≠ some k) : (q == ofInt k) = false := by
  by_contra hne
  exact h ((toInt?_congr (by simpa using hne)).trans hk)

/-- The root that undoes an odd power is simplified to a root by the reciprocal. -/
theorem simplify_rootOf {n : Float} {k : Int} (hn : toInt? n = some k) (hodd : k % 2 = 1)
    (hthree : 3 ≤ k) (hc : c.isFinite = true) (hzero : isZero c = false) (hlimit : 1 ≤ limit) :
    ∃ v, ((Solver.rootOf (const c) (const n)).simplifyConfigured limit).outcome = .ok v ∧
      IsRoot c (1 / n) v := by
  obtain ⟨hfinite, hint⟩ := reciprocal_fractional hn hodd hthree
  have hqzero : (1 / n == ofInt 0) = false := beq_ofInt_eq_false toInt?_zero (by simp [hint])
  have hqone : (1 / n == ofInt 1) = false := beq_ofInt_eq_false toInt?_one (by simp [hint])
  have hdivisor : isZero n = false := beq_ofInt_eq_false toInt?_zero (by simp [hn]; omega)
  have hfold : foldConstants (Solver.rootOf (const c) (const n)) =
      foldConstants (binary .pow (const c) (const (1 / n))) := by
    have hquotient : foldBinary .div (integer 1) (const n) = .ok (const (1 / n)) := by
      have hone : (settle (ofInt 1) : Float) = 1 := rfl
      have hstored : settle (1 / n) = 1 / n := Same.settle_of_ne_zero hqzero
      simp [foldBinary, integer, number, constValue?, BinaryOp.apply, hdivisor, hone, hstored]
    have hone : foldConstants (integer 1 : Expr Float) = .ok (integer 1) := rfl
    simp [Solver.rootOf, foldConstants, hone, hquotient, bind, Except.bind]
  obtain ⟨v, hv, hroot⟩ := iterate_pow (simplifyAtMost limit 999) hlimit hfold
    (powFault_undefined_iff hc hzero hfinite hint) (beq_self_of_not_isNaN (isNaN_eq_false hc))
    (beq_self_of_not_isNaN (isNaN_eq_false hfinite)) hqzero hqone hzero
  exact ⟨v, Run.outcome_bind.2 ⟨(), rfl, hv⟩, hroot⟩

/-- Solving an odd power of a variable, equated with a finite constant other than zero, finds a
single value. The value has no real value of its own exactly if the constant is negative. -/
theorem solveFor_odd_power {n : Float} {k : Int} (hn : toInt? n = some k) (hodd : k % 2 = 1)
    (hthree : 3 ≤ k) (hc : c.isFinite = true) (hzero : isZero c = false) (x : String)
    (hlimit : 1 ≤ limit) {maxDepth : Int} (hdepth : 1 ≤ maxDepth) :
    ∃ v, ((equation .eq (binary .pow (var x) (const n)) (const c)).solveFor limit maxDepth
        x).outcome = .ok (.single v) ∧
      ∀ env, (∃ err, evaluate env v = .error err ∧ err.family = .domain) ↔ c < 0 := by
  obtain ⟨hfinite, hint⟩ := reciprocal_fractional hn hodd hthree
  obtain ⟨v, hv, hroot⟩ := simplify_rootOf hn hodd hthree hc hzero hlimit
  have hagain := hroot.simplify hlimit (beq_self_of_not_isNaN (isNaN_eq_false hc))
    (beq_self_of_not_isNaN (isNaN_eq_false hfinite))
  refine ⟨v, ?_, hroot.evaluate (powFault_undefined_iff hc hzero hfinite hint)⟩
  obtain ⟨m, hm⟩ : ∃ m, (maxDepth + 1).toNat = m + 2 := ⟨(maxDepth - 1).toNat, by omega⟩
  -- the first level takes the power apart, and the second finds the bare variable
  have hmain : ((binary .pow (var x) (const n)).simplifyConfigured limit).outcome =
      .ok (binary .pow (var x) (const n)) :=
    simplify_var_pow hlimit (beq_self_of_not_isNaN (isNaN_of_toInt? hn))
      (beq_ofInt_eq_false toInt?_zero (by simp [hn]; omega))
      (beq_ofInt_eq_false toInt?_one (by simp [hn]; omega))
  have hother : ((const c).simplifyConfigured limit).outcome = .ok (const c) := rfl
  have hsearch : (Solver.search ⟨x, maxDepth⟩ limit (m + 2) (binary .pow (var x) (const n))
      (const c)).outcome = .ok (.single v) := by
    have hholds : (binary .pow (var x) (const n)).mentions x = true := by simp [mentions]
    have hfree : (const c).mentions x = false := rfl
    have hisolate (deeper : Solver.Search Float) :
        Solver.isolate ⟨x, maxDepth⟩ deeper limit (binary .pow (var x) (const n)) (const c) =
          Solver.invertPower deeper limit (var x) (const n) (const c) := by
      simp [Solver.isolate, mentions]
    rw [Solver.search, Run.outcome_bind_of_ok hmain, Run.outcome_bind_of_ok hother, hholds, hfree]
    dsimp only
    rw [hisolate, Solver.invertPower_odd hn hodd hv, Solver.search_bare hagain hroot.mentions]
  show (Solver.solve ⟨x, maxDepth⟩ limit .eq _ _).outcome = _
  rw [Solver.solve, if_pos rfl, hm, Run.outcome_bind_of_ok hsearch]
  rfl

set_option maxRecDepth 8000 in
/-- In `x ^ 3 = 8` the value of `x` has no domain error; in `x ^ 3 = -8` it has. -/
theorem solveFor_odd_power_eight :
    let solved (c : Float) :=
      ((equation .eq (binary .pow (var "x") (const 3)) (const c)).solveFor 10 10 "x").outcome
    let refused (v : Expr Float) :=
      ∃ err, evaluate (fun _ => none) v = .error err ∧ err.family = .domain
    (∃ v, solved 8 = .ok (.single v) ∧ ¬refused v) ∧
      ∃ v, solved (-8) = .ok (.single v) ∧ refused v := by
  intro solved refused
  have hthree : toInt? 3 = some 3 := by decide +kernel
  have hroot (c : Float) (hc : c.isFinite = true) (hzero : isZero c = false) :
      ∃ v, solved c = .ok (.single v) ∧ ∀ env, _ :=
    solveFor_odd_power hthree rfl le_rfl hc hzero "x" (by decide) (by decide)
  obtain ⟨v, hv, hpositive⟩ := hroot 8 (by decide +kernel) (by decide +kernel)
  obtain ⟨w, hw, hnegative⟩ := hroot (-8) (by decide +kernel) (by decide +kernel)
  exact ⟨⟨v, hv, fun h => absurd ((hpositive _).1 h) (by decide +kernel)⟩, w, hw,
    (hnegative _).2 (by decide +kernel)⟩

set_option maxRecDepth 8000 in
/-- The equation `x ^ 3 = -8`, which minus two solves, is solved by a value that has none. -/
theorem solveFor_cube_refused :
    ∃ v, ((equation .eq (binary .pow (var "x") (const 3)) (const (-8)) : Expr Float).solveFor 10 10
        "x").outcome = .ok (.single v) ∧
      ∃ err, evaluate (fun _ => none) v = .error err ∧ err.family = .domain :=
  ⟨_, rfl, _, rfl, rfl⟩

end Expr

end EquationEngine
