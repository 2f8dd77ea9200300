import EquationEngine.Solve
import EquationEngine.Proofs.Simplify.Errors

/-!
How the search for a variable ends, for any class of trees that simplification keeps.

The search alternates between simplifying both sides and moving one operator. It never looks at
what it has built before the next simplification, so a class of trees stays with it if
simplification ends in the class and the inverse operators keep it. Values are simplified sides
that were found free of the variable. Which trees cannot be taken apart is left open here: the
error that says so names the kind of a simplified side that holds the variable.
-/

namespace EquationEngine

open EquationEngine.Expr

variable {α : Type}

/-- A result whose kind says how many values it has, all of them with the property `P`. -/
structure Solution.WellFormed (P : Expr α → Prop) (s : Solution α) : Prop where
  single : s.kind = .single ↔ s.values.length = 1
  multiple : s.kind = .multiple ↔ 2 ≤ s.values.length
  finding : s.kind = .tautology ∨ s.kind = .notFound ↔ s.values = []
  values : ∀ v ∈ s.values, P v

namespace Solution

variable {P Q : Expr α → Prop}

theorem wellFormed_single {e : Expr α} (h : P e) : (single e).WellFormed P := by
  constructor <;> simp [single, h]

theorem wellFormed_tautology : (tautology : Solution α).WellFormed P := by
  constructor <;> simp [tautology]

theorem wellFormed_notFound : (notFound : Solution α).WellFormed P := by
  constructor <;> simp [notFound]

/-- The values of several results are counted anew; without any, the first result stands. -/
theorem wellFormed_merge {results : List (Solution α)} (h : ∀ s ∈ results, s.WellFormed P) :
    (merge results).WellFormed P := by
  have hvalues : ∀ v ∈ results.flatMap Solution.values, P v := by
    intro v hv
    obtain ⟨s, hs, hv⟩ := List.mem_flatMap.1 hv
    exact (h s hs).values v hv
  unfold merge
  split
  · cases results with
    | nil => exact wellFormed_notFound
    | cons s rest => exact h s List.mem_cons_self
  · rename_i e heq
    exact wellFormed_single (hvalues e (by simp [heq]))
  · rename_i hnil hone
    have hlength : 2 ≤ (results.flatMap Solution.values).length := by
      match hflat : results.flatMap Solution.values with
      | [] => exact absurd hflat hnil
      | [e] => exact absurd hflat (hone e)
      | e :: e' :: es => simp
    constructor
    · refine ⟨nofun, fun hsingle => ?_⟩
      change (results.flatMap Solution.values).length = 1 at hsingle
      omega
    · exact ⟨fun _ => hlength, fun _ => rfl⟩
    · refine ⟨fun hfinding => ?_, fun hempty => absurd hempty hnil⟩
      rcases hfinding with ⟨⟨⟩⟩ | ⟨⟨⟩⟩
    · exact hvalues

end Solution

namespace Solver

variable [Arithmetic α]

/-- A class of trees with their operands that the inverse operators do not leave. -/
structure Inverting (Q : Expr α → Prop) : Prop where
  integer (n : Int) : Q (.integer n)
  apply (op : UnaryOp) {e : Expr α} : Q e → Q (.apply op e)
  binary {op : BinaryOp} {a b : Expr α} : op ≠ .mod → Q a → Q b → Q (.binary op a b)
  operand {op : UnaryOp} {e : Expr α} : Q (.unary op e) → Q e
  left {op : BinaryOp} {a b : Expr α} : Q (.binary op a b) → Q a
  right {op : BinaryOp} {a b : Expr α} : Q (.binary op a b) → Q b

/-- The errors of the search itself, where simplified sides belong to `Q`. -/
inductive SearchError (s : Solver) (Q : Expr α → Prop) : Error → Prop
  | depth : SearchError s Q (.depthExceeded s.name s.maxDepth)
  | both (text : String) : SearchError s Q (.bothOperands s.name text)
  | modulus : SearchError s Q .modulusNotInvertible
  | kind {e : Expr α} : Q e → e.mentions s.name = true →
      e.kind ≠ .variableName → e.kind ≠ .unary → e.kind ≠ .binary →
      SearchError s Q (.notIsolable s.name e.kind.nodeName)

/-- The errors with which a search ends, where simplification ends with those of `F`. -/
def Fails (s : Solver) (Q : Expr α → Prop) (F : Error → Prop) (err : Error) : Prop :=
  F err ∨ SearchError s Q err

/-- The values found by a search. -/
def Found (s : Solver) (Q : Expr α → Prop) (v : Expr α) : Prop := Q v ∧ v.mentions s.name = false

variable {s : Solver} {limit : Int} {P Q : Expr α → Prop} {F : Error → Prop}

namespace Inverting

theorem invertUnary (hQ : Inverting Q) (op : UnaryOp) {other : Expr α} (h : Q other) :
    Q (Solver.invertUnary op other) := by
  cases op with
  | neg => exact hQ.apply .neg h
  | abs => exact hQ.apply .abs h
  | log => exact hQ.apply .exp h
  | exp => exact hQ.apply .log h

theorem rootOf (hQ : Inverting Q) {other exponent : Expr α} (ho : Q other) (he : Q exponent) :
    Q (Solver.rootOf other exponent) :=
  hQ.binary (by decide) ho (hQ.binary (by decide) (hQ.integer 1) he)

theorem invertLeft (hQ : Inverting Q) {op : BinaryOp} {a b other : Expr α}
    (h : Q (.binary op a b)) (ho : Q other) :
    (Run.lift (Solver.invertLeft op a b other)).Ends (fun p => Q p.1 ∧ Q p.2)
      (Fails s Q F) := by
  have ha := hQ.left h
  have hb := hQ.right h
  cases op with
  | add | sub | mul | div =>
      exact .pure ⟨ha, hQ.binary (by decide) ho hb⟩
  | pow => exact .pure ⟨ha, hQ.rootOf ho hb⟩
  | mod => exact .fail (Or.inr .modulus)

theorem invertRight (hQ : Inverting Q) {op : BinaryOp} {a b other : Expr α}
    (h : Q (.binary op a b)) (ho : Q other) :
    (Run.lift (Solver.invertRight op a b other)).Ends (fun p => Q p.1 ∧ Q p.2)
      (Fails s Q F) := by
  have ha := hQ.left h
  have hb := hQ.right h
  cases op with
  | add | mul => exact .pure ⟨hb, hQ.binary (by decide) ho ha⟩
  | sub | div => exact .pure ⟨hb, hQ.binary (by decide) ha ho⟩
  | pow => exact .pure ⟨hb, hQ.binary (by decide) (hQ.apply .log ho) (hQ.apply .log ha)⟩
  | mod => exact .fail (Or.inr .modulus)

end Inverting

/-- What a search has to do with two sides of a class. -/
def Searches (s : Solver) (Q : Expr α → Prop) (F : Error → Prop) (deeper : Search α) : Prop :=
  ∀ left right, Q left → Q right →
    (deeper left right).Ends (Solution.WellFormed (Found s Q)) (Fails s Q F)

theorem Searches.follow {deeper : Search α} (hdeeper : Searches s Q F deeper)
    (main other : Expr α) {newMain newOther : Expr α} (hm : Q newMain) (ho : Q newOther) :
    (Solver.follow deeper main other newMain newOther).Ends
      (Solution.WellFormed (Found s Q)) (Fails s Q F) :=
  .emit (hdeeper newMain newOther hm ho)

/-- Simplification of the trees of `P` ends in `Q`, or with an error of `F`. -/
def Simplifies (limit : Int) (P Q : Expr α → Prop) (F : Error → Prop) : Prop :=
  ∀ e, P e → (e.simplifyConfigured limit).Ends Q F

theorem Simplifies.ends (hsimp : Simplifies limit P Q F) {e : Expr α} (h : P e) :
    (e.simplifyConfigured limit).Ends Q (Fails s Q F) :=
  (hsimp e h).imp (fun _ h => h) fun _ h => .inl h

theorem invertPower_ends (hQ : Inverting Q) (hQP : ∀ e, Q e → P e)
    (hsimp : Simplifies limit P Q F) {deeper : Search α} (hdeeper : Searches s Q F deeper)
    {base exponent other : Expr α} (h : Q (.binary .pow base exponent)) (ho : Q other) :
    (invertPower deeper limit base exponent other).Ends
      (Solution.WellFormed (Found s Q)) (Fails s Q F) := by
  have hbase := hQ.left h
  refine (hsimp.ends (hQP _ (hQ.rootOf ho (hQ.right h)))).bind fun root hroot => ?_
  split
  · refine (hsimp.ends (hQP _ (hQ.binary (by decide) (hQ.integer (-1)) hroot))).bind ?_
    intro negated hnegated
    refine .emit ((hdeeper base root hbase hroot).bind fun first hfirst => ?_)
    refine (hdeeper base negated hbase hnegated).bind fun second hsecond => ?_
    refine .pure (Solution.wellFormed_merge ?_)
    simpa using ⟨hfirst, hsecond⟩
  · exact hdeeper.follow _ _ hbase hroot

/-- One step of isolation, given what the search below it does. -/
theorem isolate_ends (hQ : Inverting Q) (hQP : ∀ e, Q e → P e)
    (hsimp : Simplifies limit P Q F) {deeper : Search α} (hdeeper : Searches s Q F deeper)
    {main other : Expr α} (hmain : Q main) (hx : main.mentions s.name = true)
    (hother : Found s Q other) :
    (isolate s deeper limit main other).Ends
      (Solution.WellFormed (Found s Q)) (Fails s Q F) := by
  cases main with
  | var y => exact .pure (Solution.wellFormed_single hother)
  | unary op e =>
      exact hdeeper.follow _ _ (hQ.operand hmain) (hQ.invertUnary op hother.1)
  | binary op a b =>
      simp only [isolate]
      split
      · exact .fail (Or.inr (.both _))
      · split
        · rename_i hop
          subst hop
          exact invertPower_ends hQ hQP hsimp hdeeper hmain hother.1
        · exact (hQ.invertLeft hmain hother.1).bind fun p hp => hdeeper.follow _ _ hp.1 hp.2
      · exact (hQ.invertRight hmain hother.1).bind fun p hp => hdeeper.follow _ _ hp.1 hp.2
  | const v => simp [Expr.mentions] at hx
  | nary op es | equation r a b | polynomial y e =>
      refine .fail (Or.inr (.kind hmain hx ?_ ?_ ?_))
      all_goals rintro ⟨⟩

/-- A search ends in a well-formed result whose values are simplified and free of the variable. -/
theorem search_ends (hQ : Inverting Q) (hQP : ∀ e, Q e → P e) (hsimp : Simplifies limit P Q F)
    (n : Nat) {left right : Expr α} (hl : P left) (hr : P right) :
    (search s limit n left right).Ends (Solution.WellFormed (Found s Q)) (Fails s Q F) := by
  induction n generalizing left right with
  | zero => exact .fail (Or.inr .depth)
  | succ n ih =>
      have hdeeper : Searches s Q F (search s limit n) :=
        fun left right hl hr => ih (hQP _ hl) (hQP _ hr)
      refine (hsimp.ends hl).bind fun a ha => (hsimp.ends hr).bind fun b hb => ?_
      cases hleft : a.mentions s.name with
      | false =>
          cases hright : b.mentions s.name with
          | false =>
              refine .pure ?_
              split
              · exact Solution.wellFormed_tautology
              · exact Solution.wellFormed_notFound
          | true => exact isolate_ends hQ hQP hsimp hdeeper hb hright ⟨ha, hleft⟩
      | true =>
          cases hright : b.mentions s.name with
          | false => exact isolate_ends hQ hQP hsimp hdeeper ha hleft ⟨hb, hright⟩
          | true => exact .emit (hdeeper _ _ (hQ.binary (by decide) ha hb) (hQ.integer 0))

theorem solve_ends (hQ : Inverting Q) (hQP : ∀ e, Q e → P e) (hsimp : Simplifies limit P Q F)
    {left right : Expr α} (hl : P left) (hr : P right) :
    (solve s limit .eq left right).Ends (Solution.WellFormed (Found s Q)) (Fails s Q F) := by
  refine (search_ends hQ hQP hsimp _ hl hr).bind fun result hresult => ?_
  exact .emit (.pure hresult)

/-! The errors of solving any equation. -/

/-- Trees without remainders, where that is asked for. -/
theorem inverting_noRemainder (clean : Prop) :
    Inverting fun e : Expr α => clean → EveryNode NoRemainder e where
  integer _ _ := everyNode_const.2 (shallow_noRemainder.const _)
  apply op e h hclean := by
    refine shallow_noRemainder.shape.apply (everyNode_unary.2 ⟨?_, h hclean⟩) (h hclean)
    cases op <;> simp [NoRemainder, operatorWord?, UnaryOp.word, BinaryOp.word]
  binary hop ha hb hclean := by
    refine everyNode_binary.2 ⟨?_, ha hclean, hb hclean⟩
    rename_i op _ _
    cases op <;> simp_all [NoRemainder, operatorWord?, BinaryOp.word]
  operand h hclean := (everyNode_unary.1 (h hclean)).2
  left h hclean := (everyNode_binary.1 (h hclean)).2.1
  right h hclean := (everyNode_binary.1 (h hclean)).2.2

/-- Solving ends in an error of a documented family, or with the remainder of an infinite dividend
and then only if a remainder occurs in the equation. -/
theorem solve_error {r : Relation} {left right : Expr α} {err : Error}
    (h : (solve s limit r left right).outcome = .error err) :
    err.family.isAlgebraic = true ∨
      err = .remainderOfInfinity ∧ ¬EveryNode NoRemainder (.equation r left right) := by
  by_cases hr : r ≠ .eq
  · rw [solve, if_neg hr] at h
    cases h
    exact .inl rfl
  obtain rfl : r = .eq := Decidable.not_not.1 hr
  let clean : Prop := EveryNode NoRemainder (.equation .eq left right)
  let Q (e : Expr α) : Prop := clean → EveryNode NoRemainder e
  have hsimp : Simplifies limit Q Q fun err => err.family.isAlgebraic = true ∨
      err = .remainderOfInfinity ∧ ¬EveryNode NoRemainder (.equation .eq left right) := by
    intro e he
    constructor
    · intro r hr hclean
      obtain ⟨_, _, hr⟩ := Run.outcome_bind.1 hr
      exact shallow_noRemainder.shape.keeps (he hclean) hr
    · intro err herr
      cases (simplifyConfigured_error herr).2 with
      | division => exact .inl rfl
      | modulus => exact .inl rfl
      | remainder hmod => exact .inr ⟨rfl, fun hclean => hmod (he hclean)⟩
  have hleft : Q left := fun hclean => (everyNode_equation.1 hclean).2.1
  have hright : Q right := fun hclean => (everyNode_equation.1 hclean).2.2
  have hends := solve_ends (s := s) (inverting_noRemainder clean) (fun _ h => h) hsimp hleft hright
  rcases hends.2 err h with hsimplify | hsearch
  · exact hsimplify
  · cases hsearch <;> exact .inl rfl

end Solver

end EquationEngine
