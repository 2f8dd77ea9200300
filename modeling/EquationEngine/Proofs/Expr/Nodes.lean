import Mathlib.Data.Set.Defs
import EquationEngine.Expr.Traversal
import EquationEngine.Proofs.Simplify.Shape

/-!
The nodes of a tree.

Both walks visit the same nodes, so what the queries find can be said by either. A property of
single nodes that does not look at their operands holds at every node of a simplified tree if it
holds at every node of the given one: the passes bring in constants, negations, sums, differences,
products and powers, and otherwise only operators that were there before.
-/

namespace EquationEngine.Expr

variable {α : Type}

/-! The two walks. -/

theorem depthFirst_eq_cons (e : Expr α) : e.depthFirst = e :: depthFirstAll e.children := by
  cases e <;> simp [depthFirst, depthFirstAll, children]

@[simp] theorem depthFirstAll_append (as bs : List (Expr α)) :
    depthFirstAll (as ++ bs) = depthFirstAll as ++ depthFirstAll bs := by
  induction as with
  | nil => rfl
  | cons a as ih => simp [depthFirstAll, ih]

theorem mem_depthFirstAll {n : Expr α} {es : List (Expr α)} :
    n ∈ depthFirstAll es ↔ ∃ e ∈ es, n ∈ e.depthFirst := by
  induction es with
  | nil => simp [depthFirstAll]
  | cons e es ih => simp [depthFirstAll, ih]

theorem visitQueue_perm (queue : List (Expr α)) :
    (visitQueue queue).Perm (depthFirstAll queue) := by
  fun_induction visitQueue queue with
  | case1 => exact .nil
  | case2 e queue ih =>
      rw [depthFirstAll_append] at ih
      rw [depthFirstAll, depthFirst_eq_cons, List.cons_append]
      exact (ih.trans List.perm_append_comm).cons e

theorem mem_breadthFirst {n e : Expr α} : n ∈ e.breadthFirst ↔ n ∈ e.depthFirst := by
  rw [breadthFirst, (visitQueue_perm [e]).mem_iff, depthFirstAll, depthFirstAll, List.append_nil]

/-! Names. -/

theorem mem_insertName {x y : String} {names : List String} :
    y ∈ insertName x names ↔ y = x ∨ y ∈ names := by
  fun_induction insertName x names with
  | case1 => simp
  | case2 => simp
  | case3 => simp
  | case4 z names _ _ ih =>
      rw [List.mem_cons, ih, List.mem_cons]
      exact or_left_comm

theorem mem_foldl_insertName {y : String} (xs names : List String) :
    y ∈ xs.foldl (fun names x => insertName x names) names ↔ y ∈ xs ∨ y ∈ names := by
  induction xs generalizing names with
  | nil => simp
  | cons x xs ih =>
      rw [List.foldl_cons, ih, mem_insertName, List.mem_cons, or_left_comm, or_assoc]

/-- The names of a tree are those its nodes bring in. -/
theorem mem_names {e : Expr α} {y : String} :
    y ∈ e.names ↔ ∃ n ∈ e.depthFirst, n.ownName? = some y := by
  rw [names, mem_foldl_insertName]
  simp [mem_breadthFirst]

/-- The names of a tree are its own and those of the trees directly below it. -/
theorem mem_names_iff {e : Expr α} {y : String} :
    y ∈ e.names ↔ e.ownName? = some y ∨ ∃ t ∈ e.children, y ∈ t.names := by
  simp only [mem_names, depthFirst_eq_cons e, List.mem_cons, or_and_right, exists_or,
    exists_eq_left, mem_depthFirstAll]
  refine or_congr_right ⟨?_, ?_⟩
  · rintro ⟨n, ⟨t, ht, hn⟩, hname⟩
    exact ⟨t, ht, n, hn, hname⟩
  · rintro ⟨t, ht, n, hn, hname⟩
    exact ⟨n, ⟨t, ht, hn⟩, hname⟩

/-! Properties of all nodes. -/

/-- Every node of a tree has a property. -/
def EveryNode (p : Expr α → Prop) (e : Expr α) : Prop := ∀ n ∈ e.depthFirst, p n

section EveryNode

variable {p : Expr α → Prop}

theorem EveryNode.root {e : Expr α} (h : EveryNode p e) : p e :=
  h e (by simp [depthFirst_eq_cons])

theorem everyNode_iff {e : Expr α} :
    EveryNode p e ↔ p e ∧ ∀ t ∈ e.children, EveryNode p t := by
  rw [EveryNode, depthFirst_eq_cons, List.forall_mem_cons]
  simp only [mem_depthFirstAll]
  refine and_congr_right fun _ => ⟨fun h t ht n hn => h n ⟨t, ht, hn⟩, ?_⟩
  rintro h n ⟨t, ht, hn⟩
  exact h t ht n hn

@[simp] theorem everyNode_const {v : α} : EveryNode p (const v) ↔ p (const v) := by
  rw [everyNode_iff]
  simp [children]

@[simp] theorem everyNode_var {x : String} : EveryNode p (var x) ↔ p (var x) := by
  rw [everyNode_iff]
  simp [children]

@[simp] theorem everyNode_unary {op : UnaryOp} {e : Expr α} :
    EveryNode p (unary op e) ↔ p (unary op e) ∧ EveryNode p e := by
  rw [everyNode_iff]
  simp [children]

@[simp] theorem everyNode_binary {op : BinaryOp} {a b : Expr α} :
    EveryNode p (binary op a b) ↔ p (binary op a b) ∧ EveryNode p a ∧ EveryNode p b := by
  rw [everyNode_iff]
  simp [children]

@[simp] theorem everyNode_nary {op : NaryOp} {es : List (Expr α)} :
    EveryNode p (nary op es) ↔ p (nary op es) ∧ ∀ e ∈ es, EveryNode p e := by
  rw [everyNode_iff]
  simp [children]

@[simp] theorem everyNode_equation {r : Relation} {a b : Expr α} :
    EveryNode p (equation r a b) ↔ p (equation r a b) ∧ EveryNode p a ∧ EveryNode p b := by
  rw [everyNode_iff]
  simp [children]

@[simp] theorem everyNode_polynomial {x : String} {e : Expr α} :
    EveryNode p (polynomial x e) ↔ p (polynomial x e) ∧ EveryNode p e := by
  rw [everyNode_iff]
  simp [children]

end EveryNode

/-- A property of single nodes that holds of what the passes bring in, and of an operator over any
operands if it holds of that operator over some. -/
structure Shallow (p : Expr α → Prop) : Prop where
  const (v : α) : p (const v)
  neg (e : Expr α) : p (unary .neg e)
  add (a b : Expr α) : p (binary .add a b)
  sub (a b : Expr α) : p (binary .sub a b)
  mul (a b : Expr α) : p (binary .mul a b)
  pow (a b : Expr α) : p (binary .pow a b)
  unary {op : UnaryOp} {e : Expr α} (e' : Expr α) : p (unary op e) → p (unary op e')
  binary {op : BinaryOp} {a b : Expr α} (a' b' : Expr α) :
    p (binary op a b) → p (binary op a' b')
  equation {r : Relation} {a b : Expr α} (a' b' : Expr α) :
    p (equation r a b) → p (equation r a' b')

/-- A shallow property of all nodes is a shape. -/
theorem Shallow.shape [Arithmetic α] {p : Expr α → Prop} (hp : Shallow p) :
    Shape (EveryNode p) where
  number _ := everyNode_const.2 (hp.const _)
  neg h := everyNode_unary.2 ⟨hp.neg _, h⟩
  add ha hb := everyNode_binary.2 ⟨hp.add _ _, ha, hb⟩
  sub ha hb := everyNode_binary.2 ⟨hp.sub _ _, ha, hb⟩
  mul ha hb := everyNode_binary.2 ⟨hp.mul _ _, ha, hb⟩
  square h := everyNode_binary.2 ⟨hp.pow _ _, h, everyNode_const.2 (hp.const _)⟩
  operand h := (everyNode_unary.1 h).2
  under h h' := everyNode_unary.2 ⟨hp.unary _ h.root, h'⟩
  left h := (everyNode_binary.1 h).2.1
  right h := (everyNode_binary.1 h).2.2
  again _ h ha hb := everyNode_binary.2 ⟨hp.binary _ _ h.root, ha, hb⟩
  power _ := .inl fun _ _ ha hb => everyNode_binary.2 ⟨hp.pow _ _, ha, hb⟩
  part h he := (everyNode_nary.1 h).2 _ he
  side h := (everyNode_equation.1 h).2
  relate h ha hb := everyNode_equation.2 ⟨hp.equation _ _ h.root, ha, hb⟩
  body h := (everyNode_polynomial.1 h).2

/-- A node of a tree made of constants, variables of `V` and operators over one and two operands. -/
def Simple (V : Set String) : Expr α → Prop
  | var y => y ∈ V
  | nary .. | equation .. | polynomial .. => False
  | const _ | unary .. | binary .. => True

theorem shallow_simple {V : Set String} : Shallow (Simple V : Expr α → Prop) where
  const _ := trivial
  neg _ := trivial
  add _ _ := trivial
  sub _ _ := trivial
  mul _ _ := trivial
  pow _ _ := trivial
  unary _ _ := trivial
  binary _ _ _ := trivial
  equation _ _ h := h

/-- The variables of a simple tree belong to `V`. -/
theorem EveryNode.names_subset {V : Set String} {e : Expr α} (h : EveryNode (Simple V) e)
    {y : String} (hy : y ∈ e.names) : y ∈ V := by
  obtain ⟨n, hn, hname⟩ := mem_names.1 hy
  have hsimple := h n hn
  cases n with
  | var z =>
      cases hname
      exact hsimple
  | polynomial z e => exact hsimple.elim
  | _ => cases hname

/-- In a simple tree a variable is found exactly if some node brings it in. -/
theorem EveryNode.mentions_iff {V : Set String} {e : Expr α} (h : EveryNode (Simple V) e)
    {y : String} : e.mentions y = true ↔ y ∈ e.names := by
  rw [mem_names_iff]
  induction e with
  | const v => simp [mentions, ownName?, children]
  | var x => simp [mentions, ownName?, children]
  | unary op e ih =>
      rw [mentions, ih (everyNode_unary.1 h).2, ← mem_names_iff]
      simp [ownName?, children]
  | binary op a b iha ihb =>
      obtain ⟨-, ha, hb⟩ := everyNode_binary.1 h
      rw [mentions, Bool.or_eq_true, iha ha, ihb hb, ← mem_names_iff, ← mem_names_iff]
      simp [ownName?, children]
  | nary op es => exact h.root.elim
  | equation r a b => exact h.root.elim
  | polynomial x e => exact h.root.elim

end EquationEngine.Expr
