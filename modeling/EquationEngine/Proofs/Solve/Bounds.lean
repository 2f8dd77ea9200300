import EquationEngine.Solve
import EquationEngine.Double.Arithmetic
import EquationEngine.Proofs.Expr.Basic
import EquationEngine.Proofs.Run

/-!
The bounds of simplification and of solving are guards only.

A loop of sweeps and a search count down, and what they do on the way does not depend on how much
is left. So a larger bound changes a computation only if the smaller one was met somewhere in it:
in the loop itself, in a restart, under an operator, on a side of an equation, or in one of the two
branches of an even power. Where the smaller bound was not met the two computations are the same,
with the same answer or error and the same events.
-/

namespace EquationEngine

namespace Run

variable {β γ : Type}

/-- A way to cut a computation short. A computation made of two is cut short where either of them
is. -/
structure Guard where
  /-- The computation was cut short. -/
  Met : {β : Type} → Run β → Prop
  first : ∀ {β γ : Type} {r : Run β} (f : β → Run γ), Met r → Met (r >>= f)
  second : ∀ {β γ : Type} {r : Run β} {f : β → Run γ} {b : β},
    r.outcome = .ok b → Met (f b) → Met (r >>= f)

/-- The second computation is the first one, unless the first was cut short. -/
def Guard.Spares (g : Guard) (r r' : Run β) : Prop := ¬g.Met r → r' = r

namespace Guard

variable {g : Guard}

theorem Spares.refl (r : Run β) : g.Spares r r := fun _ => rfl

theorem Spares.of_met {r r' : Run β} (h : g.Met r) : g.Spares r r' := fun hfree => absurd h hfree

/-- If neither part of a computation can tell two bounds apart, the whole cannot. -/
theorem Spares.bind {r r' : Run β} {f f' : β → Run γ} (h : g.Spares r r')
    (hf : ∀ b, g.Spares (f b) (f' b)) : g.Spares (r >>= f) (r' >>= f') := by
  intro hfree
  obtain rfl : r' = r := h fun hmet => hfree (g.first f hmet)
  show r'.andThen f' = r'.andThen f
  cases hout : r'.outcome with
  | error e => simp [andThen, hout]
  | ok b =>
      have hnext : f' b = f b := hf b fun hmet => hfree (g.second hout hmet)
      simp [andThen, hout, hnext]

/-- A common beginning can be left out. -/
theorem Spares.after (r : Run β) {f f' : β → Run γ} (hf : ∀ b, g.Spares (f b) (f' b)) :
    g.Spares (r >>= f) (r >>= f') :=
  (Spares.refl r).bind hf

end Guard

theorem mem_events_bind {r : Run β} {f : β → Run γ} {e : Event} :
    e ∈ (r >>= f).events ↔ e ∈ r.events ∨ ∃ b, r.outcome = .ok b ∧ e ∈ (f b).events := by
  show e ∈ (r.andThen f).events ↔ _
  cases hout : r.outcome <;> simp [andThen, hout]

/-- Some loop used up its iterations. -/
def iterationGuard : Guard where
  Met r := ∃ limit, Event.iterationsExhausted limit ∈ r.events
  first _ := fun ⟨limit, h⟩ => ⟨limit, mem_events_bind.2 (.inl h)⟩
  second hb := fun ⟨limit, h⟩ => ⟨limit, mem_events_bind.2 (.inr ⟨_, hb, h⟩)⟩

/-- The computation ended in a certain error. -/
def errorGuard (err : Error) : Guard where
  Met r := r.outcome = .error err
  first _ h := outcome_bind_error.2 (.inl h)
  second hb h := outcome_bind_error.2 (.inr ⟨_, hb, h⟩)

end Run

open Run

variable {α : Type} [Arithmetic α]

/-! Simplification. -/

namespace Expr

variable {limit limit' : Int} {restart restart' : Expr α → Run (Expr α)}

theorem iterate_spares (hrestart : ∀ e, iterationGuard.Spares (restart e) (restart' e))
    {n n' : Nat} (hn : n ≤ n') (done : Nat) (e : Expr α) :
    iterationGuard.Spares (iterate restart limit n done e) (iterate restart' limit' n' done e) := by
  induction n generalizing n' done e with
  | zero => exact .of_met ⟨limit, mem_events_bind.2 (.inl List.mem_cons_self)⟩
  | succ n ih =>
      obtain ⟨m, rfl⟩ : ∃ m, n' = m + 1 := ⟨n' - 1, by omega⟩
      rw [iterate, iterate]
      refine .after _ fun s => ?_
      cases s with
      | constant c => exact .refl _
      | swept next =>
          dsimp only
          split
          · exact .refl _
          · split
            · exact ih (by omega) (done + 1) next
            · exact hrestart next

theorem simplifyWith_spares (h : limit ≤ limit')
    (hrestart : ∀ e, iterationGuard.Spares (restart e) (restart' e)) (e : Expr α) :
    iterationGuard.Spares (simplifyWith restart limit e) (simplifyWith restart' limit' e) := by
  have hsweeps : limit.toNat ≤ limit'.toNat := by omega
  induction e with
  | const v => exact .refl _
  | var x => exact .refl _
  | unary op e ih =>
      rw [simplifyWith, simplifyWith]
      exact ih.bind fun _ => .refl _
  | binary op a b _ _ => exact iterate_spares hrestart hsweeps 0 _
  | nary op es ih =>
      match es with
      | [] => exact .refl _
      | [e] => exact ih e (by simp)
      | _ :: _ :: _ => exact iterate_spares hrestart hsweeps 0 _
  | equation r a b iha ihb =>
      rw [simplifyWith, simplifyWith]
      exact iha.bind fun _ => ihb.bind fun _ => .refl _
  | polynomial x e ih => exact ih

/-- More sweeps per loop make no difference to a simplification in which no loop ran out of them.
-/
theorem simplify_spares (h : limit ≤ limit') (e : Expr α) :
    iterationGuard.Spares (simplify limit e) (simplify limit' e) := by
  suffices ∀ n e, iterationGuard.Spares (simplifyAtMost limit n e) (simplifyAtMost limit' n e) from
    this restartLimit e
  intro n
  induction n with
  | zero => exact fun e => simplifyWith_spares h (fun _ => .refl _) e
  | succ n ih => exact fun e => simplifyWith_spares h ih e

end Expr

/-! Solving. -/

namespace Solver

variable {g : Guard} {limit : Int} {deeper deeper' : Search α}

/-- Deeper searches of which the second differs from the first only where that was cut short. -/
def SparesBelow (g : Guard) (deeper deeper' : Search α) : Prop :=
  ∀ left right, g.Spares (deeper left right) (deeper' left right)

theorem follow_spares (h : SparesBelow g deeper deeper') (main other newMain newOther : Expr α) :
    g.Spares (follow deeper main other newMain newOther)
      (follow deeper' main other newMain newOther) :=
  .after _ fun _ => h newMain newOther

theorem invertPower_spares (h : SparesBelow g deeper deeper') (base exponent other : Expr α) :
    g.Spares (invertPower deeper limit base exponent other)
      (invertPower deeper' limit base exponent other) := by
  refine .after _ fun root => ?_
  split
  · -- both branches search below the same depth
    refine .after _ fun negated => .after _ fun _ => ?_
    exact (h base root).bind fun _ => (h base negated).bind fun _ => .refl _
  · exact follow_spares h _ _ _ _

theorem isolate_spares (s s' : Solver) (hname : s.name = s'.name)
    (h : SparesBelow g deeper deeper') (main other : Expr α) :
    g.Spares (isolate s deeper limit main other) (isolate s' deeper' limit main other) := by
  cases main with
  | unary op e => exact follow_spares h _ _ _ _
  | binary op a b =>
      simp only [isolate, ← hname]
      split
      · exact .refl _
      · split
        · exact invertPower_spares h _ _ _
        · exact .after _ fun _ => follow_spares h _ _ _ _
      · exact .after _ fun _ => follow_spares h _ _ _ _
  | _ =>
      simp only [isolate, ← hname]
      exact .refl _

/-- More levels make no difference to a search that did not run out of them. -/
theorem search_spares (s s' : Solver) (hname : s.name = s'.name) {n n' : Nat} (hn : n ≤ n')
    (left right : Expr α) :
    (errorGuard (.depthExceeded s.name s.maxDepth)).Spares (search s limit n left right)
      (search s' limit n' left right) := by
  induction n generalizing n' left right with
  | zero => exact .of_met rfl
  | succ n ih =>
      obtain ⟨m, rfl⟩ : ∃ m, n' = m + 1 := ⟨n' - 1, by omega⟩
      have hbelow : SparesBelow (errorGuard (.depthExceeded s.name s.maxDepth))
          (search (α := α) s limit n) (search s' limit m) :=
        fun left right => ih (by omega) left right
      rw [search, search]
      refine .after _ fun a => .after _ fun b => ?_
      simp only [← hname]
      split
      · exact .refl _
      · exact .after _ fun _ => hbelow _ _
      · exact isolate_spares s s' hname hbelow a b
      · exact isolate_spares s s' hname hbelow b a

end Solver

namespace Expr

theorem solveFor_spares {limit d d' : Int} (h : d ≤ d') (x : String) (e : Expr α) :
    (errorGuard (.depthExceeded x d)).Spares (solveFor limit d x e) (solveFor limit d' x e) := by
  cases e with
  | equation r a b =>
      rw [solveFor, solveFor, Solver.solve, Solver.solve]
      split
      · have hlevels : (d + 1).toNat ≤ (d' + 1).toNat := by omega
        exact (Solver.search_spares ⟨x, d⟩ ⟨x, d'⟩ rfl hlevels a b).bind fun _ => .refl _
      · exact .refl _
  | _ => exact .refl _

/-- Bounds are guards only. A larger bound on the sweeps leaves a simplification as it is, in its
answer or error and in its events, if no loop of it used up the smaller one; a larger bound on the
depth leaves a solving as it is unless this ended with the report that the smaller one was met. -/
theorem bounds_are_guards :
    (∀ (t : Expr α) (k k' : Int), k ≤ k' →
      (∀ limit, Event.iterationsExhausted limit ∉ (simplify k t).events) →
      simplify k' t = simplify k t) ∧
    ∀ (e : Expr α) (x : String) (limit d d' : Int), d ≤ d' →
      (solveFor limit d x e).outcome ≠ .error (.depthExceeded x d) →
      solveFor limit d' x e = solveFor limit d x e := by
  refine ⟨fun t k k' h hfree => simplify_spares h t ?_, fun e x limit d d' h hfree => ?_⟩
  · rintro ⟨limit, hmet⟩
    exact hfree limit hmet
  · exact solveFor_spares h x e hfree

set_option maxRecDepth 8000 in
/-- Two sweeps are enough for `|2 - (x + 5)|`, and one step down for both values of `x` in
`x ^ 2 = y`. -/
theorem bounds_are_guards_square :
    let t : Expr Float := unary .abs (binary .sub (integer 2) (binary .add (var "x") (integer 5)))
    let e : Expr Float := equation .eq (binary .pow (var "x") (integer 2)) (var "y")
    let root : Expr Float := binary .pow (var "y") (const 0.5)
    (simplify 2 t).events = [.fixedPoint 2] ∧ simplify 64 t = simplify 2 t ∧
      (solveFor 5 1 "x" e).outcome = .ok ⟨.multiple, [root, unary .neg root]⟩ ∧
      solveFor 5 256 "x" e = solveFor 5 1 "x" e := by
  intro t e root
  have hevents : (simplify 2 t).events = [.fixedPoint 2] := by decide +kernel
  have houtcome : (solveFor 5 1 "x" e).outcome = .ok ⟨.multiple, [root, unary .neg root]⟩ := rfl
  obtain ⟨hsweeps, hdepth⟩ := bounds_are_guards (α := Float)
  refine ⟨hevents, hsweeps t 2 64 (by decide) ?_, houtcome, hdepth e "x" 5 1 256 (by decide) ?_⟩
  · simp [hevents]
  · simp [houtcome]

end Expr

end EquationEngine
