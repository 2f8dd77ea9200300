import EquationEngine.Expr.Basic

/-!
Walks through a tree, and the questions answered by them.

The depth-first walk follows the tree; the breadth-first walk keeps a queue of subtrees and ends
because every step takes one node off the queue for good.
-/

namespace EquationEngine

/-- The two orders in which nodes can be listed. -/
inductive Order where
  | breadthFirst
  | depthFirst
  deriving DecidableEq, Repr

def Order.read : String → Except Error Order
  | "breadth_first" => .ok breadthFirst
  | "depth_first" => .ok depthFirst
  | w => .error (.unknownTraversal w)

namespace Expr

variable {α : Type}

/-- The nodes of a queue of trees: each tree in front is followed, at the back, by its children. -/
def visitQueue : List (Expr α) → List (Expr α)
  | [] => []
  | e :: queue => e :: visitQueue (queue ++ e.children)
termination_by queue => sizeAll queue
decreasing_by
  simp [sizeAll, size_eq_children]
  omega

/-- The nodes level by level, from left to right within a level. -/
def breadthFirst (e : Expr α) : List (Expr α) := visitQueue [e]

mutual

/-- The nodes with every node in front of its subtrees. -/
def depthFirst : Expr α → List (Expr α)
  | const v => [const v]
  | var x => [var x]
  | unary op e => unary op e :: depthFirst e
  | binary op a b => binary op a b :: (depthFirst a ++ depthFirst b)
  | nary op es => nary op es :: depthFirstAll es
  | equation r a b => equation r a b :: (depthFirst a ++ depthFirst b)
  | polynomial x e => polynomial x e :: depthFirst e
termination_by structural e => e

/-- The depth-first walks through a list of trees, one after another. -/
def depthFirstAll : List (Expr α) → List (Expr α)
  | [] => []
  | e :: es => depthFirst e ++ depthFirstAll es
termination_by structural es => es

end

/-- The nodes in the given order. -/
def nodes (e : Expr α) : Order → List (Expr α)
  | .breadthFirst => e.breadthFirst
  | .depthFirst => e.depthFirst

/-- The name that a single node brings in. -/
def ownName? : Expr α → Option String
  | var x => some x
  | polynomial x _ => some x
  | _ => none

/-- The word of a node's operator. -/
def operatorWord? : Expr α → Option String
  | unary op _ => some op.word
  | binary op _ _ => some op.word
  | nary op _ => some op.word
  | _ => none

/-- A name put into a strictly increasing list of names. -/
def insertName (x : String) : List String → List String
  | [] => [x]
  | y :: ys => if x < y then x :: y :: ys else if x = y then y :: ys else y :: insertName x ys

/-- The names of all variables, each once and in increasing order. -/
def names (e : Expr α) : List String :=
  (e.breadthFirst.filterMap ownName?).foldl (fun names x => insertName x names) []

/-- The constants in breadth-first order. -/
def constants (e : Expr α) : List α :=
  e.breadthFirst.filterMap fun
    | const v => some v
    | _ => none

/-- The nodes whose operator is written with the given word, in breadth-first order. -/
def withOperator (e : Expr α) (word : String) : List (Expr α) :=
  e.breadthFirst.filter fun n => n.operatorWord? == some word

mutual

/-- Whether a variable occurs; a polynomial is asked for its mark only. -/
def mentions (name : String) : Expr α → Bool
  | const _ => false
  | var x => x == name
  | unary _ e => mentions name e
  | binary _ a b => mentions name a || mentions name b
  | nary _ es => mentionsAny name es
  | equation _ a b => mentions name a || mentions name b
  | polynomial x _ => x == name
termination_by structural e => e

/-- Whether a variable occurs in some tree of a list. -/
def mentionsAny (name : String) : List (Expr α) → Bool
  | [] => false
  | e :: es => mentions name e || mentionsAny name es
termination_by structural es => es

end

end Expr

end EquationEngine
