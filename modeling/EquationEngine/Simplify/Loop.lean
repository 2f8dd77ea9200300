import EquationEngine.Expr.Placed
import EquationEngine.Simplify.Collect
import EquationEngine.Simplify.Fold
import EquationEngine.Simplify.Identity
import EquationEngine.Simplify.Reassociate
import EquationEngine.Run

/-!
Simplification to a fixed point.

A binary tree is swept by folding, re-association, identity elimination and collection until a
sweep changes nothing, the tree is a constant, or the permitted iterations are used up. A sweep
may collapse the tree to a leaf or an operator over one operand; simplification then starts anew
on that tree.

Whether a sweep changed something is seen by comparing trees, and constants compare as numbers. A
constant that does not equal itself counts as unchanged if the sweep handed it on from where it
stood, and as changed if the sweep stored it anew. The places are those of the tree before the
sweep; what an earlier sweep wrote twice stands at two places and is two constants.
-/

namespace EquationEngine.Expr

variable {α : Type} [Arithmetic α]

/-- How one sweep over a tree ends. -/
inductive Sweep (α : Type) where
  /-- A constant was reached before the sweep was over. -/
  | constant (e : Expr α)
  /-- All four passes were made. -/
  | swept (e : Expr α)

/-- One sweep of the four passes over a tree. -/
def sweep (e : Expr α) : Except Error (Sweep α) := do
  let folded ← foldConstants e
  if folded.isConst then return .constant folded
  let flat ← flattenPeaks folded
  if flat.isConst then return .constant flat
  let plain ← dropIdentities flat
  return .swept (collect plain)

/-- Whether a sweep hands the tree on, down to the constants that do not equal themselves. -/
def untouched (e : Expr α) : Bool :=
  match sweep e.placed with
  | .ok (.swept next) => same next e.placed
  | _ => false

/-- Whether a sweep that makes `next` of a tree changes nothing. -/
def unchanged (e next : Expr α) : Bool := next == e || (!(next == next) && untouched e)

/-- The sweeps over a binary tree: at most `remaining` more after the `done` made so far. A tree
that collapsed is handed to `restart`. -/
def iterate (restart : Expr α → Run (Expr α)) (limit : Int) :
    (remaining done : Nat) → Expr α → Run (Expr α)
  | 0, _, e => do
    Run.emit (.iterationsExhausted limit)
    return e
  | n + 1, done, e => do
    match ← Run.lift (sweep e) with
    | .constant c => return c
    | .swept next =>
      if next.isConst || unchanged e next then
        Run.emit (.fixedPoint (done + 1))
        return next
      else if next.isBinary then iterate restart limit n (done + 1) next
      else restart next

/-- Simplification of every kind of tree, given what happens to trees that collapsed. -/
def simplifyWith (restart : Expr α → Run (Expr α)) (limit : Int) : Expr α → Run (Expr α)
  | polynomial _ e => simplifyWith restart limit e
  | equation r a b => do
    let a' ← simplifyWith restart limit a
    let b' ← simplifyWith restart limit b
    return equation r a' b'
  | unary op e => do return foldUnary op (← simplifyWith restart limit e)
  | nary op [] => return unflatten op []
  | nary _ [e] => simplifyWith restart limit e
  | nary op (e :: e' :: es) => iterate restart limit limit.toNat 0 (unflatten op (e :: e' :: es))
  | binary op a b => iterate restart limit limit.toNat 0 (binary op a b)
  | const v => return const v
  | var x => return var x
termination_by structural e => e

/-- How often simplification may start anew on a collapsed tree. The bound belongs to this
development: it makes the recursion one on a number, and no measure that falls with every restart is
known. A simplification that reaches it stops with a warning of its own. -/
def restartLimit : Nat := 1000

/-- Simplification with a number of restarts left. -/
def simplifyAtMost (limit : Int) : (restarts : Nat) → Expr α → Run (Expr α)
  | 0 => simplifyWith (fun e => do Run.emit (.restartsExhausted restartLimit); return e) limit
  | n + 1 => simplifyWith (simplifyAtMost limit n) limit

/-- The simplified form of a tree, with at most `limit` sweeps in every loop. -/
def simplify (limit : Int) (e : Expr α) : Run (Expr α) := simplifyAtMost limit restartLimit e

/-- The simplified form of a tree under the configured limit. -/
def simplifyConfigured (limit : Int) (e : Expr α) : Run (Expr α) := do
  Run.consult
  simplify limit e

end EquationEngine.Expr
