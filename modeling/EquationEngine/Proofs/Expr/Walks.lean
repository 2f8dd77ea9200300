import Mathlib.Data.List.Flatten
import Mathlib.Data.List.Range
import Mathlib.Logic.Function.Iterate
import Mathlib.Order.Basic
import EquationEngine.Proofs.Expr.Nodes

/-!
The two walks through a tree, its size and its depth.

The breadth-first walk keeps a queue. While it goes through the trees of one level, the front of the
queue is what is left of that level and the back is what was found so far of the next one, so it
lists the levels one after another. A node is told apart from its equals by its path: which operand
to take at every step down from the root. The length of the path is the distance from the root.
-/

namespace EquationEngine.Expr

variable {α : Type}

/-! Sizes. -/

theorem length_depthFirstAll {es : List (Expr α)} (h : ∀ e ∈ es, e.depthFirst.length = e.size) :
    (depthFirstAll es).length = sizeAll es := by
  induction es with
  | nil => rfl
  | cons e es ih =>
      rw [List.forall_mem_cons] at h
      rw [depthFirstAll, sizeAll, List.length_append, h.1, ih h.2]

theorem length_depthFirst (e : Expr α) : e.depthFirst.length = e.size := by
  induction e with
  | const v | var x => rfl
  | unary op e ih | polynomial x e ih => rw [depthFirst, size, List.length_cons, ih]
  | binary op a b iha ihb | equation r a b iha ihb =>
      rw [depthFirst, size, List.length_cons, List.length_append, iha, ihb]
  | nary op es ih => rw [depthFirst, size, List.length_cons, length_depthFirstAll ih]

theorem breadthFirst_perm (e : Expr α) : e.breadthFirst.Perm e.depthFirst := by
  simpa [breadthFirst, depthFirstAll] using visitQueue_perm [e]

/-! Depths. -/

theorem depth_eq_children (e : Expr α) : e.depth = depthAll e.children + 1 := by
  cases e <;> simp [depth, depthAll, children]

theorem depthAll_append (es es' : List (Expr α)) :
    depthAll (es ++ es') = max (depthAll es) (depthAll es') := by
  induction es with
  | nil => simp [depthAll]
  | cons e es ih => rw [List.cons_append, depthAll, depthAll, ih, Nat.max_assoc]

theorem depth_le_depthAll {e : Expr α} {es : List (Expr α)} (h : e ∈ es) :
    e.depth ≤ depthAll es := by
  induction es with
  | nil => cases h
  | cons t es ih =>
      obtain rfl | h := List.mem_cons.1 h
      · exact Nat.le_max_left _ _
      · exact (ih h).trans (Nat.le_max_right _ _)

/-- The depth of a list of trees is the depth of one of them. -/
theorem exists_mem_depth {es : List (Expr α)} (h : es ≠ []) : ∃ e ∈ es, e.depth = depthAll es := by
  induction es with
  | nil => exact absurd rfl h
  | cons e es ih =>
      obtain hle | hlt := Nat.lt_or_ge e.depth (depthAll es) |>.symm
      · exact ⟨e, List.mem_cons_self, (Nat.max_eq_left hle).symm⟩
      · have hne : es ≠ [] := by
          rintro rfl
          exact Nat.not_lt_zero _ hlt
        obtain ⟨t, ht, hdepth⟩ := ih hne
        exact ⟨t, List.mem_cons_of_mem _ ht, hdepth.trans (Nat.max_eq_right hlt.le).symm⟩

/-- One level further down, a list of trees is less deep by one. -/
theorem depthAll_flatMap_children (es : List (Expr α)) :
    depthAll (es.flatMap children) = depthAll es - 1 := by
  induction es with
  | nil => rfl
  | cons e es ih =>
      rw [List.flatMap_cons, depthAll_append, ih, depthAll, depth_eq_children]
      omega

/-! Levels. -/

/-- The nodes at a distance from the root, from left to right. -/
def level : Nat → Expr α → List (Expr α)
  | 0, e => [e]
  | n + 1, e => e.children.flatMap (level n)

/-- The trees at the front of the queue are visited before the operands of any of them. -/
theorem visitQueue_append (front back : List (Expr α)) :
    visitQueue (front ++ back) = front ++ visitQueue (back ++ front.flatMap children) := by
  induction front generalizing back with
  | nil => simp
  | cons e front ih =>
      rw [List.cons_append, visitQueue, List.append_assoc, ih, List.flatMap_cons,
        List.append_assoc, List.cons_append]

/-- A queue of trees is visited level by level. -/
theorem visitQueue_eq_levels {n : Nat} {queue : List (Expr α)} (h : depthAll queue = n) :
    visitQueue queue = (List.range n).flatMap fun k => queue.flatMap (level k) := by
  induction n generalizing queue with
  | zero =>
      cases queue with
      | nil => simp [visitQueue]
      | cons e queue =>
          rw [depthAll, depth_eq_children] at h
          omega
  | succ n ih =>
      have hround := visitQueue_append queue []
      rw [List.append_nil, List.nil_append] at hround
      rw [hround, ih (by rw [depthAll_flatMap_children, h, Nat.add_sub_cancel]),
        List.range_succ_eq_map, List.flatMap_cons, List.flatMap_map]
      simp [level, List.flatMap_assoc]

theorem breadthFirst_eq_levels (e : Expr α) :
    e.breadthFirst = (List.range e.depth).flatMap fun k => level k e := by
  rw [breadthFirst, visitQueue_eq_levels (n := e.depth) (by simp [depthAll])]
  simp

/-! Paths. -/

/-- The subtree at the end of a path, which says at every step down from the root which operand to
take. -/
def at? : List Nat → Expr α → Option (Expr α)
  | [], e => some e
  | i :: path, e => e.children[i]?.bind (at? path)

/-- The paths to the nodes at a distance from the root, from left to right. -/
def paths : Nat → Expr α → List (List Nat)
  | 0, _ => [[]]
  | n + 1, e => e.children.zipIdx.flatMap fun (t, i) => (paths n t).map (i :: ·)

theorem mem_paths {n : Nat} {e : Expr α} {path : List Nat} :
    path ∈ paths n e ↔ path.length = n ∧ (at? path e).isSome := by
  induction n generalizing e path with
  | zero => cases path <;> simp [paths, at?]
  | succ n ih =>
      cases path with
      | nil => simp [paths]
      | cons i path =>
          have hstep : i :: path ∈ paths (n + 1) e ↔
              ∃ t, e.children[i]? = some t ∧ path ∈ paths n t := by
            simp [paths, List.mem_zipIdx_iff_getElem?]
          rw [hstep, at?, List.length_cons, Nat.add_right_cancel_iff]
          cases h : e.children[i]? with
          | none => simp
          | some t => simp [ih]

/-- Within a level, the paths come in lexicographic order. -/
theorem pairwise_paths (n : Nat) (e : Expr α) : (paths n e).Pairwise (· < ·) := by
  induction n generalizing e with
  | zero => simp [paths]
  | succ n ih =>
      rw [paths, List.pairwise_flatMap]
      constructor
      · rintro ⟨t, i⟩ _
        rw [List.pairwise_map]
        exact (ih t).imp fun h => List.cons_lt_cons_iff.2 (.inr ⟨rfl, h⟩)
      · have hindex : e.children.zipIdx.Pairwise fun p q => p.2 < q.2 := by
          rw [← List.pairwise_map (f := Prod.snd), List.zipIdx_map_snd]
          exact List.pairwise_lt_range'
        refine hindex.imp ?_
        rintro ⟨t, i⟩ ⟨u, j⟩ hlt path hpath path' hpath'
        obtain ⟨_, _, rfl⟩ := List.mem_map.1 hpath
        obtain ⟨_, _, rfl⟩ := List.mem_map.1 hpath'
        exact List.cons_lt_cons_iff.2 (.inl hlt)

/-- The paths of a level lead to its nodes. -/
theorem map_at_paths (n : Nat) (e : Expr α) :
    (paths n e).map (at? · e) = (level n e).map some := by
  induction n generalizing e with
  | zero => rfl
  | succ n ih =>
      have hchild : ∀ p ∈ e.children.zipIdx,
          ((paths n p.1).map (p.2 :: ·)).map (at? · e) = (level n p.1).map some := by
        rintro ⟨t, i⟩ hp
        have ht : e.children[i]? = some t := List.mem_zipIdx_iff_getElem?.1 hp
        rw [← ih, List.map_map]
        refine List.map_congr_left fun path _ => ?_
        simp [at?, ht]
      have hforget := List.flatMap_map Prod.fst (fun t => (level n t).map some) e.children.zipIdx
      rw [List.zipIdx_map_fst] at hforget
      rw [paths, List.map_flatMap, List.flatMap_congr hchild, level, List.map_flatMap, hforget]

theorem length_lt_depth {path : List Nat} {e : Expr α} (h : (at? path e).isSome) :
    path.length < e.depth := by
  induction path generalizing e with
  | nil =>
      rw [depth_eq_children]
      exact Nat.succ_pos _
  | cons i path ih =>
      cases ht : e.children[i]? with
      | none => simp [at?, ht] at h
      | some t =>
          have hpath : (at? path t).isSome := by simpa [at?, ht] using h
          rw [depth_eq_children, List.length_cons]
          exact Nat.succ_lt_succ ((ih hpath).trans_le (depth_le_depthAll (List.mem_of_getElem? ht)))

/-- Some path is as long as the depth allows. -/
theorem exists_deepest (e : Expr α) : ∃ path, (at? path e).isSome ∧ path.length + 1 = e.depth := by
  induction h : e.depth generalizing e with
  | zero =>
      rw [depth_eq_children] at h
      omega
  | succ n ih =>
      rw [depth_eq_children, Nat.add_right_cancel_iff] at h
      by_cases hleaf : e.children = []
      · rw [hleaf] at h
        exact ⟨[], rfl, by rw [← h]; rfl⟩
      · obtain ⟨t, ht, hdepth⟩ := exists_mem_depth hleaf
        obtain ⟨i, hi⟩ := List.getElem?_of_mem ht
        obtain ⟨path, hpath, hlength⟩ := ih t (hdepth.trans h)
        refine ⟨i :: path, ?_, by rw [List.length_cons, hlength]⟩
        rw [at?, hi]
        exact hpath

/-- A path leads to a node nearer to the root than another path, or to one further left at the same
distance. -/
def Earlier (p q : List Nat) : Prop := p.length < q.length ∨ p.length = q.length ∧ p < q

/-- The paths to all nodes, level by level. -/
def allPaths (e : Expr α) : List (List Nat) := (List.range e.depth).flatMap fun n => paths n e

theorem mem_allPaths {e : Expr α} {path : List Nat} :
    path ∈ allPaths e ↔ (at? path e).isSome := by
  simp only [allPaths, List.mem_flatMap, List.mem_range, mem_paths]
  constructor
  · rintro ⟨n, -, -, h⟩
    exact h
  · exact fun h => ⟨path.length, length_lt_depth h, rfl, h⟩

theorem pairwise_allPaths (e : Expr α) : (allPaths e).Pairwise Earlier := by
  rw [allPaths, List.pairwise_flatMap]
  constructor
  · intro n _
    refine (pairwise_paths n e).imp_of_mem fun hp hq hlt => .inr ⟨?_, hlt⟩
    rw [(mem_paths.1 hp).1, (mem_paths.1 hq).1]
  · refine List.pairwise_lt_range.imp fun hlt p hp q hq => .inl ?_
    rwa [(mem_paths.1 hp).1, (mem_paths.1 hq).1]

theorem map_at_allPaths (e : Expr α) : (allPaths e).map (at? · e) = e.breadthFirst.map some := by
  rw [allPaths, breadthFirst_eq_levels, List.map_flatMap, List.map_flatMap]
  exact List.flatMap_congr fun n _ => map_at_paths n e

/-! The loop. -/

/-- The state of the breadth-first loop. -/
structure Visit (α : Type) where
  visited : List (Expr α)
  queue : List (Expr α)

namespace Visit

/-- The state in which the walk through a tree begins. -/
def start (e : Expr α) : Visit α := ⟨[], [e]⟩

/-- One turn of the loop; with an empty queue it is over. -/
def next (v : Visit α) : Visit α :=
  match v.queue with
  | [] => v
  | e :: queue => ⟨v.visited ++ [e], queue ++ e.children⟩

/-- A turn takes one node off the forest in the queue. -/
theorem sizeAll_next (v : Visit α) : sizeAll v.next.queue = sizeAll v.queue - 1 := by
  unfold next
  split
  · rename_i h
    rw [h]
    rfl
  · rename_i e queue h
    rw [h, sizeAll_append, sizeAll, size_eq_children]
    omega

/-- What was visited and what the queue still leads to stay the same together. -/
theorem visited_next (v : Visit α) :
    v.next.visited ++ visitQueue v.next.queue = v.visited ++ visitQueue v.queue := by
  unfold next
  split
  · rfl
  · rename_i e queue h
    rw [h, visitQueue, List.append_assoc, List.singleton_append]

theorem sizeAll_iterate (v : Visit α) (n : Nat) :
    sizeAll (next^[n] v).queue = sizeAll v.queue - n := by
  induction n with
  | zero => rfl
  | succ n ih => rw [Function.iterate_succ_apply', sizeAll_next, ih, Nat.sub_add_eq]

theorem visited_iterate (v : Visit α) (n : Nat) :
    (next^[n] v).visited ++ visitQueue (next^[n] v).queue = v.visited ++ visitQueue v.queue := by
  induction n with
  | zero => rfl
  | succ n ih => rw [Function.iterate_succ_apply', visited_next, ih]

theorem sizeAll_eq_zero_iff {es : List (Expr α)} : sizeAll es = 0 ↔ es = [] := by
  cases es with
  | nil => simp [sizeAll]
  | cons e es => simp [sizeAll, size_eq_children]

/-- The queue runs empty after as many turns as the tree has nodes, and not before. -/
theorem queue_iterate_start (e : Expr α) (n : Nat) :
    (next^[n] (start e)).queue = [] ↔ e.size ≤ n := by
  rw [← sizeAll_eq_zero_iff, sizeAll_iterate, Nat.sub_eq_zero_iff_le]
  rfl

theorem visited_iterate_start (e : Expr α) :
    (next^[e.size] (start e)).visited = e.breadthFirst := by
  have hinv := visited_iterate (start e) e.size
  rw [(queue_iterate_start e e.size).2 (Nat.le_refl _), visitQueue, List.append_nil] at hinv
  exact hinv

end Visit

/-- The breadth-first loop ends after as many turns as the tree has nodes. It visits the same nodes
as the depth-first walk, each as often. There is one path to every node it visits; the paths are
listed by increasing length and within one length from left to right, and the depth is one more than
the length of the longest. -/
theorem walks_agree (e : Expr α) :
    (∀ n, (Visit.next^[n] (.start e)).queue = [] ↔ e.size ≤ n) ∧
    (Visit.next^[e.size] (.start e)).visited = e.breadthFirst ∧
    e.breadthFirst.Perm e.depthFirst ∧
    e.breadthFirst.length = e.size ∧ e.depthFirst.length = e.size ∧
    ∃ paths : List (List Nat),
      (∀ path, path ∈ paths ↔ (at? path e).isSome) ∧
      paths.Pairwise Earlier ∧
      paths.map (at? · e) = e.breadthFirst.map some ∧
      (∀ path ∈ paths, path.length + 1 ≤ e.depth) ∧ ∃ path ∈ paths, path.length + 1 = e.depth := by
  have hlength : e.breadthFirst.length = e.size :=
    (breadthFirst_perm e).length_eq.trans (length_depthFirst e)
  refine ⟨Visit.queue_iterate_start e, Visit.visited_iterate_start e, breadthFirst_perm e, hlength,
    length_depthFirst e, allPaths e, fun path => mem_allPaths, pairwise_allPaths e,
    map_at_allPaths e, fun path hpath => length_lt_depth (mem_allPaths.1 hpath), ?_⟩
  obtain ⟨path, hpath, hdepth⟩ := exists_deepest e
  exact ⟨path, mem_allPaths.2 hpath, hdepth⟩

end EquationEngine.Expr
