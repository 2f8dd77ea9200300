import Mathlib.Algebra.Group.Nat.Defs
import Mathlib.Data.Set.Insert
import EquationEngine.Proofs.Solve.WellFormed

/-!
The path of a search.

Which operators a search takes apart, where it splits in two and where it gets stuck is decided by
the side that holds the variable. The other side is only carried along: it stays free of the
variable, so it never takes part in a decision. The number of values a search finds is therefore a
function of the one side, and it doubles at every even power.
-/

namespace EquationEngine

open EquationEngine.Expr

variable {α : Type}

namespace Expr

/-- A tree without marks and flat chains is free of a variable where the variable is not found. -/
theorem everyNode_simple_compl {e : Expr α} {x : String} :
    EveryNode (Simple {x}ᶜ) e ↔ EveryNode (Simple Set.univ) e ∧ e.mentions x = false := by
  induction e with
  | const v => simp [Simple, mentions]
  | var y => simp [Simple, mentions]
  | unary op e ih => simpa [Simple, mentions] using ih
  | binary op a b iha ihb =>
      simp only [everyNode_binary, iha, ihb, Simple, mentions, Bool.or_eq_false_iff, true_and]
      exact and_and_and_comm
  | nary op es ih => simp [Simple]
  | equation r a b iha ihb => simp [Simple]
  | polynomial y e ih => simp [Simple]

end Expr

/-- Several results together have the values of each. -/
theorem Solution.values_merge (results : List (Solution α)) :
    (merge results).values = results.flatMap Solution.values := by
  unfold merge
  split
  · rename_i hnil
    rw [hnil]
    cases results with
    | nil => rfl
    | cons first rest => exact (List.flatMap_eq_nil_iff.1 hnil) first List.mem_cons_self
  · rename_i e hone
    exact hone.symm
  · rfl

namespace Solver

variable [Arithmetic α]

/-- The number of values behind a simplified side that holds the variable, given the numbers behind
its operands; `none` where the side cannot be taken apart. -/
def yieldBehind (s : Solver) (deeper : Expr α → Option Nat) : Expr α → Option Nat
  | .var _ => some 1
  | .unary _ e => deeper e
  | .binary op a b =>
    match a.mentions s.name, b.mentions s.name with
    | true, true => none
    | true, false =>
      match op with
      | .mod => none
      | .pow => (deeper a).map fun k => if isEvenInteger b then 2 * k else k
      | _ => deeper a
    | false, _ => if op = .mod then none else deeper b
  | _ => none

/-- The number of values that a search finds by taking one side apart; `none` where it does not come
to an end. -/
def yield (s : Solver) (limit : Int) : (levels : Nat) → Expr α → Option Nat
  | 0, _ => none
  | n + 1, side =>
    match (side.simplifyConfigured limit).outcome with
    | .ok main => if main.mentions s.name then yieldBehind s (yield s limit n) main else some 0
    | .error _ => none

/-- A number of values that comes about by doubling: none, or a power of two. -/
def Doubled (k : Nat) : Prop := k = 0 ∨ ∃ m, k = 2 ^ m

theorem Doubled.double {k : Nat} (h : Doubled k) : Doubled (2 * k) := by
  obtain rfl | ⟨m, rfl⟩ := h
  · exact .inl rfl
  · exact .inr ⟨m + 1, Nat.pow_succ'.symm⟩

theorem doubled_yieldBehind (s : Solver) {deeper : Expr α → Option Nat}
    (hdeeper : ∀ e k, deeper e = some k → Doubled k) {main : Expr α} {k : Nat}
    (h : yieldBehind s deeper main = some k) : Doubled k := by
  unfold yieldBehind at h
  split at h
  · cases h
    exact .inr ⟨0, rfl⟩
  · exact hdeeper _ _ h
  · split at h
    · cases h
    · split at h
      · cases h
      · -- an even power doubles the number behind its base
        obtain ⟨k', hk', rfl⟩ := Option.map_eq_some_iff.1 h
        split
        · exact (hdeeper _ _ hk').double
        · exact hdeeper _ _ hk'
      · exact hdeeper _ _ h
    · split at h
      · cases h
      · exact hdeeper _ _ h
  · cases h

theorem doubled_yield (s : Solver) (limit : Int) {n : Nat} {side : Expr α} {k : Nat}
    (h : yield s limit n side = some k) : Doubled k := by
  induction n generalizing side k with
  | zero => cases h
  | succ n ih =>
      unfold yield at h
      split at h
      · split at h
        · exact doubled_yieldBehind s (fun _ _ => ih) h
        · cases h
          exact .inl rfl
      · cases h

/-! The search on the path. -/

/-- The errors that say that the variable cannot be isolated. -/
def Blocked (err : Error) : Prop := err.family = .unsupported ∨ err.family = .noInverse

/-- The computation finds as many values as foretold, and does not get stuck unless foretold. -/
def Yields (r : Run (Solution α)) (foretold : Option Nat) : Prop :=
  r.Ends (fun sol => foretold = some sol.values.length) fun err => Blocked err → foretold = none

variable {s : Solver} {limit : Int}

/-- What a deeper search has to do, with the variable of the solver on its first side only. -/
def Follows (s : Solver) (deeper : Search α) (foretold : Expr α → Option Nat) : Prop :=
  ∀ left right, EveryNode (Simple Set.univ) left → EveryNode (Simple {s.name}ᶜ) right →
    Yields (deeper left right) (foretold left)

theorem Follows.follow {deeper : Search α} {foretold : Expr α → Option Nat}
    (h : Follows s deeper foretold) (main other : Expr α) {newMain newOther : Expr α}
    (hm : EveryNode (Simple Set.univ) newMain) (ho : EveryNode (Simple {s.name}ᶜ) newOther) :
    Yields (Solver.follow deeper main other newMain newOther) (foretold newMain) :=
  .emit (h newMain newOther hm ho)

/-- An error of simplification does not say that the variable cannot be isolated. -/
theorem not_blocked_of_simplify {err : Error}
    (h : err = .divisionByZero ∨ err = .modulusByZero ∨ err = .remainderOfInfinity) :
    ¬Blocked err := by
  rcases h with rfl | rfl | rfl <;> rintro (h | h) <;> cases h

theorem simplifies_other (hlimit : 1 ≤ limit) {foretold : Option Nat} {V : Set String}
    {e : Expr α} (h : EveryNode (Simple V) e.unmarked) :
    (e.simplifyConfigured limit).Ends (EveryNode (Simple V))
      fun err => Blocked err → foretold = none :=
  (simplifies_of_shape shallow_simple.shape hlimit e h).imp (fun _ h => h)
    fun _ herr hblocked => absurd hblocked (not_blocked_of_simplify herr)

/-- A power yields what its base yields, or twice as much if it is even. -/
theorem invertPower_yields (hlimit : 1 ≤ limit) {deeper : Search α}
    {foretold : Expr α → Option Nat} (hdeeper : Follows s deeper foretold)
    {base exponent other : Expr α} (hbase : EveryNode (Simple Set.univ) base)
    (hexponent : EveryNode (Simple {s.name}ᶜ) exponent)
    (hother : EveryNode (Simple {s.name}ᶜ) other) :
    Yields (invertPower deeper limit base exponent other)
      ((foretold base).map fun k => if isEvenInteger exponent then 2 * k else k) := by
  have hfree := inverting_simple (α := α) (V := {s.name}ᶜ)
  have hunmarked {e : Expr α} (h : EveryNode (Simple {s.name}ᶜ) e) :
      EveryNode (Simple {s.name}ᶜ) e.unmarked := shallow_simple.shape.unmarked h
  have hbranch (root : Expr α) (hroot : EveryNode (Simple {s.name}ᶜ) root) (g : Nat → Nat) :
      (deeper base root).Ends (fun sol => foretold base = some sol.values.length)
        fun err => Blocked err → (foretold base).map g = none :=
    (hdeeper base root hbase hroot).imp (fun _ h => h) fun _ h hblocked => by rw [h hblocked]; rfl
  refine (simplifies_other hlimit (hunmarked (hfree.rootOf hother hexponent))).bind ?_
  intro root hroot
  split
  · have hproduct : EveryNode (Simple {s.name}ᶜ) (.binary .mul (.integer (-1)) root) :=
      hfree.binary (by decide) (hfree.integer (-1)) hroot
    refine (simplifies_other hlimit (hunmarked hproduct)).bind fun negated hnegated => ?_
    -- both branches take the same base apart, so they yield the same number of values
    refine .emit ((hbranch root hroot _).bind fun first hfirst => ?_)
    refine (hbranch negated hnegated _).bind fun second hsecond => .pure ?_
    have hlength : first.values.length = second.values.length :=
      Option.some.inj (hfirst.symm.trans hsecond)
    simp only [hfirst, Option.map_some, Solution.values_merge, List.flatMap_cons, List.flatMap_nil,
      List.append_nil, List.length_append, hlength, Nat.two_mul]
  · rw [Option.map_id']
    exact hdeeper.follow (.binary .pow base exponent) other hbase hroot

/-- One step of isolation yields what is foretold, if the search below it does. -/
theorem isolate_yields (hlimit : 1 ≤ limit) {deeper : Search α}
    {foretold : Expr α → Option Nat} (hdeeper : Follows s deeper foretold)
    {main other : Expr α} (hmain : EveryNode (Simple Set.univ) main)
    (hother : EveryNode (Simple {s.name}ᶜ) other) :
    Yields (isolate s deeper limit main other) (yieldBehind s foretold main) := by
  have hfree := inverting_simple (α := α) (V := {s.name}ᶜ)
  cases main with
  | var y => exact .pure rfl
  | unary op e =>
      exact hdeeper.follow _ _ (everyNode_unary.1 hmain).2 (hfree.invertUnary op hother)
  | binary op a b =>
      obtain ⟨-, ha, hb⟩ := everyNode_binary.1 hmain
      simp only [isolate, yieldBehind]
      cases hleft : a.mentions s.name with
      | true =>
          cases hright : b.mentions s.name with
          | true => exact .fail fun _ => rfl
          | false =>
              have hb := everyNode_simple_compl.2 ⟨hb, hright⟩
              cases op with
              | pow => exact invertPower_yields hlimit hdeeper ha hb hother
              | mod => exact .fail fun _ => rfl
              | _ => exact hdeeper.follow _ _ ha (hfree.binary (by decide) hother hb)
      | false =>
          have ha := everyNode_simple_compl.2 ⟨ha, hleft⟩
          cases op with
          | mod => exact .fail fun _ => rfl
          | pow =>
              exact hdeeper.follow _ _ hb
                (hfree.binary (by decide) (hfree.apply .log hother) (hfree.apply .log ha))
          | add | mul => exact hdeeper.follow _ _ hb (hfree.binary (by decide) hother ha)
          | sub | div => exact hdeeper.follow _ _ hb (hfree.binary (by decide) ha hother)
  | _ => exact .fail fun _ => rfl

/-- A search finds as many values as the side that holds the variable foretells. -/
theorem search_yields (hlimit : 1 ≤ limit) (n : Nat) {left right : Expr α}
    (hl : EveryNode (Simple Set.univ) left.unmarked)
    (hr : EveryNode (Simple {s.name}ᶜ) right.unmarked) :
    Yields (search s limit n left right) (yield s limit n left) := by
  induction n generalizing left right with
  | zero => exact .fail fun _ => rfl
  | succ n ih =>
      have hdeeper : Follows s (search s limit n) (yield s limit n) := fun _ _ hl hr =>
        ih (shallow_simple.shape.unmarked hl) (shallow_simple.shape.unmarked hr)
      have hleft := simplifies_of_shape shallow_simple.shape hlimit left hl
      unfold search yield
      refine .bind (P := fun main => (left.simplifyConfigured limit).outcome = .ok main)
        ⟨fun _ h => h, fun err herr hblocked =>
          absurd hblocked (not_blocked_of_simplify (hleft.2 err herr))⟩ fun main hmain => ?_
      refine (simplifies_other hlimit hr).bind fun other hother => ?_
      have hfree := (everyNode_simple_compl.1 hother).2
      simp only [hmain, hfree]
      cases hholds : main.mentions s.name with
      | true => exact isolate_yields hlimit hdeeper (hleft.1 main hmain) hother
      | false =>
          refine .pure ?_
          rw [if_neg (by decide)]
          split <;> rfl

/-- A solution is found by a search one deeper than the bound. -/
theorem solve_yields (hlimit : 1 ≤ limit) {left right : Expr α}
    (hl : EveryNode (Simple Set.univ) left.unmarked)
    (hr : EveryNode (Simple {s.name}ᶜ) right.unmarked) :
    Yields (solve s limit .eq left right) (yield s limit (s.maxDepth + 1).toNat left) :=
  (search_yields hlimit _ hl hr).bind fun _ h => .emit (.pure h)

end Solver

namespace Expr

variable [Arithmetic α]

/-- Two equations with one left side, and right sides free of the variable, have the same number
of values if both are solved: none, or a power of two. If the variable of one cannot be isolated,
the other is not solved either. -/
theorem solveFor_follows_side {left right₁ right₂ : Expr α} (hl : left.IsSide) (x : String)
    (h₁ : EveryNode (Simple {x}ᶜ) right₁) (h₂ : EveryNode (Simple {x}ᶜ) right₂) {limit : Int}
    (hlimit : 1 ≤ limit) (maxDepth : Int) :
    let solved (right : Expr α) := ((equation .eq left right).solveFor limit maxDepth x).outcome
    (∀ sol₁ sol₂, solved right₁ = .ok sol₁ → solved right₂ = .ok sol₂ →
      sol₁.values.length = sol₂.values.length ∧
      (sol₁.values.length = 0 ∨ ∃ m, sol₁.values.length = 2 ^ m)) ∧
    ∀ err, solved right₁ = .error err → err.family = .unsupported ∨ err.family = .noInverse →
      ∀ sol₂, solved right₂ ≠ .ok sol₂ := by
  intro solved
  have hleft := (hl.solvable (V := Set.univ) fun _ _ => trivial).unmarked_simple
  have hunmarked {e : Expr α} (h : EveryNode (Simple {x}ᶜ) e) :=
    shallow_simple.shape.unmarked h
  have hyields₁ := Solver.solve_yields (s := ⟨x, maxDepth⟩) hlimit hleft (hunmarked h₁)
  have hyields₂ := Solver.solve_yields (s := ⟨x, maxDepth⟩) hlimit hleft (hunmarked h₂)
  constructor
  · intro sol₁ sol₂ hsol₁ hsol₂
    have hforetold := hyields₁.1 sol₁ hsol₁
    exact ⟨Option.some.inj (hforetold.symm.trans (hyields₂.1 sol₂ hsol₂)),
      Solver.doubled_yield _ limit hforetold⟩
  · intro err herr hblocked sol₂ hsol₂
    have hnone := hyields₁.2 err herr hblocked
    cases hnone.symm.trans (hyields₂.1 sol₂ hsol₂)

set_option maxRecDepth 8000 in
/-- The equations `(x ^ 2) ^ 2 = y` and `(x ^ 2) ^ 2 = exp z` have four values each. -/
theorem solveFor_follows_side_nested :
    let square (e : Expr Float) : Expr Float := binary .pow e (integer 2)
    let solved (right : Expr Float) :=
      ((equation .eq (square (square (var "x"))) right).solveFor 5 5 "x").outcome
    ∃ sol₁ sol₂, solved (var "y") = .ok sol₁ ∧ solved (unary .exp (var "z")) = .ok sol₂ ∧
      sol₁.values.length = 4 ∧ sol₂.values.length = 4 := by
  intro square solved
  have hl : (square (square (var "x"))).IsSide := by
    simp [square, IsSide, depthFirst, kind, integer, number]
  have h₁ : EveryNode (Simple {"x"}ᶜ) (var "y" : Expr Float) := everyNode_var.2 (by simp [Simple])
  have h₂ : EveryNode (Simple {"x"}ᶜ) (unary .exp (var "z") : Expr Float) :=
    everyNode_unary.2 ⟨trivial, everyNode_var.2 (by simp [Simple])⟩
  have hsol₁ : ∃ sol, solved (var "y") = .ok sol ∧ sol.values.length = 4 := ⟨_, rfl, rfl⟩
  have hsol₂ : ∃ sol, solved (unary .exp (var "z")) = .ok sol := ⟨_, rfl⟩
  obtain ⟨sol₁, hsol₁, hfour⟩ := hsol₁
  obtain ⟨sol₂, hsol₂⟩ := hsol₂
  have hlength := ((solveFor_follows_side hl "x" h₁ h₂ (by decide) 5).1 sol₁ sol₂ hsol₁ hsol₂).1
  exact ⟨sol₁, sol₂, hsol₁, hsol₂, hfour, hlength.symm.trans hfour⟩

end Expr

end EquationEngine
