import EquationEngine.Double.Arithmetic
import EquationEngine.Proofs.Expr.Nodes

/-!
What becomes of flat sums and products, and of polynomial marks.

Simplification writes a flat sum or product as a chain where it meets one on its way down: at the
root, below operators over one operand, below marks, and as the only operand of another. It meets
no flat one below an operator over two operands or beside other operands. Such a flat sum or product
is taken over as it stands, with the marks inside it; all other marks are removed.
-/

namespace EquationEngine.Expr

variable {α : Type}

/-- The outermost flat sums and products of a tree. -/
def flats : Expr α → List (Expr α)
  | const _ | var _ => []
  | unary _ e | polynomial _ e => flats e
  | binary _ a b | equation _ a b => flats a ++ flats b
  | nary op es => [nary op es]

/-- The outermost flat sums and products that simplification does not meet. -/
def buried : Expr α → List (Expr α)
  | const _ | var _ | nary _ [] => []
  | unary _ e | polynomial _ e | nary _ [e] => buried e
  | nary _ (e :: e' :: es) => (e :: e' :: es).flatMap flats
  | binary _ a b => flats a ++ flats b
  | equation _ a b => buried a ++ buried b
termination_by structural e => e

theorem EveryNode.flats {p : Expr α → Prop} {e : Expr α} (h : EveryNode p e) :
    ∀ m ∈ e.flats, EveryNode p m := by
  induction e with
  | const v => simp [Expr.flats]
  | var x => simp [Expr.flats]
  | unary op e ih => exact ih (everyNode_unary.1 h).2
  | polynomial x e ih => exact ih (everyNode_polynomial.1 h).2
  | binary op a b iha ihb =>
      obtain ⟨-, ha, hb⟩ := everyNode_binary.1 h
      exact List.forall_mem_append.2 ⟨iha ha, ihb hb⟩
  | equation r a b iha ihb =>
      obtain ⟨-, ha, hb⟩ := everyNode_equation.1 h
      exact List.forall_mem_append.2 ⟨iha ha, ihb hb⟩
  | nary op es => simpa [Expr.flats] using h

theorem EveryNode.buried {p : Expr α → Prop} {e : Expr α} (h : EveryNode p e) :
    ∀ m ∈ e.buried, EveryNode p m := by
  induction e with
  | const v => simp [Expr.buried]
  | var x => simp [Expr.buried]
  | unary op e ih => exact ih (everyNode_unary.1 h).2
  | polynomial x e ih => exact ih (everyNode_polynomial.1 h).2
  | binary op a b =>
      obtain ⟨-, ha, hb⟩ := everyNode_binary.1 h
      exact List.forall_mem_append.2 ⟨ha.flats, hb.flats⟩
  | equation r a b iha ihb =>
      obtain ⟨-, ha, hb⟩ := everyNode_equation.1 h
      exact List.forall_mem_append.2 ⟨iha ha, ihb hb⟩
  | nary op es ih =>
      have hes := (everyNode_nary.1 h).2
      match es with
      | [] => simp [Expr.buried]
      | [e] => exact ih e (by simp) (hes e (by simp))
      | e :: e' :: es =>
          intro m hm
          obtain ⟨t, ht, hm⟩ := List.mem_flatMap.1 hm
          exact (hes t ht).flats m hm

/-- A node that simplification makes, or one of those that it takes over. -/
def Taken (K : Set (Expr α)) (n : Expr α) : Prop := Simple Set.univ n ∨ n ∈ K

theorem shallow_taken {K : Set (Expr α)} (hK : ∀ n ∈ K, n.kind ≠ .equation) :
    Shallow (Taken K) where
  const _ := .inl trivial
  neg _ := .inl trivial
  add _ _ := .inl trivial
  sub _ _ := .inl trivial
  mul _ _ := .inl trivial
  pow _ _ := .inl trivial
  unary _ _ := .inl trivial
  binary _ _ _ := .inl trivial
  equation _ _ h := h.elim False.elim fun h => absurd rfl (hK _ h)

theorem everyNode_taken_unmarked {K : Set (Expr α)} {e : Expr α}
    (hequation : EveryNode (fun n => n.kind ≠ .equation) e)
    (h : ∀ m ∈ e.flats, EveryNode (· ∈ K) m) : EveryNode (Taken K) e.unmarked := by
  induction e with
  | const v => exact everyNode_const.2 (.inl trivial)
  | var x => exact everyNode_var.2 (.inl trivial)
  | unary op e ih => exact everyNode_unary.2 ⟨.inl trivial, ih (everyNode_unary.1 hequation).2 h⟩
  | binary op a b iha ihb =>
      obtain ⟨-, hea, heb⟩ := everyNode_binary.1 hequation
      obtain ⟨ha, hb⟩ := List.forall_mem_append.1 h
      exact everyNode_binary.2 ⟨.inl trivial, iha hea ha, ihb heb hb⟩
  | polynomial x e ih => exact ih (everyNode_polynomial.1 hequation).2 h
  | nary op es => exact fun n hn => .inr (h (nary op es) (List.mem_singleton_self _) n hn)
  | equation r a b => exact absurd rfl hequation.root

variable [Arithmetic α]

omit [Arithmetic α] in
theorem unmarked_chain (op : BinaryOp) (e : Expr α) (es : List (Expr α)) :
    (chain op e es).unmarked = chain op e.unmarked (es.map unmarked) := by
  induction es generalizing e with
  | nil => rfl
  | cons t es ih => exact ih (binary op e t)

/-- With an iteration to spend, simplification takes over only what it does not meet. -/
theorem taken_of_simplifyWith {K : Set (Expr α)} (hK : ∀ n ∈ K, n.kind ≠ .equation)
    {restart : Expr α → Run (Expr α)} {limit : Int} (hlimit : 1 ≤ limit)
    (hrestart : ∀ e r, EveryNode (Taken K) e → (restart e).outcome = .ok r →
      EveryNode (Taken K) r)
    {e r : Expr α} (hequation : EveryNode (fun n => n.kind ≠ .equation) e)
    (h : ∀ m ∈ e.buried, EveryNode (· ∈ K) m)
    (hr : (simplifyWith restart limit e).outcome = .ok r) : EveryNode (Taken K) r := by
  have hP := (shallow_taken hK).shape
  have hswept {e r : Expr α} (h : EveryNode (Taken K) e.unmarked)
      (hr : (iterate restart limit limit.toNat 0 e).outcome = .ok r) : EveryNode (Taken K) r := by
    obtain hr | ⟨hnone, -⟩ := hP.iterate (fun e r he hr => .inl (hrestart e r he hr)) h
      (fun hzero => by omega) hr
    · exact hr
    · omega
  induction e generalizing r with
  | const v =>
      cases hr
      exact everyNode_const.2 (.inl trivial)
  | var x =>
      cases hr
      exact everyNode_var.2 (.inl trivial)
  | unary op e ih =>
      obtain ⟨e', he, hr⟩ := Run.outcome_bind.1 hr
      cases hr
      have he' := ih (everyNode_unary.1 hequation).2 h he
      exact hP.foldUnary (everyNode_unary.2 ⟨.inl trivial, he'⟩) he'
  | binary op a b =>
      obtain ⟨-, hea, heb⟩ := everyNode_binary.1 hequation
      obtain ⟨ha, hb⟩ := List.forall_mem_append.1 h
      refine hswept (everyNode_binary.2 ⟨.inl trivial, ?_, ?_⟩) hr
      · exact everyNode_taken_unmarked hea ha
      · exact everyNode_taken_unmarked heb hb
  | polynomial x e ih => exact ih (everyNode_polynomial.1 hequation).2 h hr
  | nary op es ih =>
      have hes := (everyNode_nary.1 hequation).2
      match es with
      | [] =>
          cases hr
          exact everyNode_const.2 (.inl trivial)
      | [e] => exact ih e (by simp) (hes e (by simp)) h hr
      | e :: e' :: es =>
          have hpart {t : Expr α} (ht : t ∈ e :: e' :: es) : EveryNode (Taken K) t.unmarked :=
            everyNode_taken_unmarked (hes t ht) fun m hm => h m (List.mem_flatMap.2 ⟨t, ht, hm⟩)
          refine hswept ?_ hr
          rw [unflatten, unmarked_chain]
          refine hP.chain (hpart List.mem_cons_self) fun u hu => ?_
          obtain ⟨t, ht, rfl⟩ := List.mem_map.1 hu
          exact hpart (List.mem_cons_of_mem _ ht)
  | equation rel a b => exact absurd rfl hequation.root

/-- The flat sums, flat products and marks that are left in a simplified tree stand inside a flat
sum or product of the given tree below an operator over two operands or beside other operands. If
there is no such place in the given tree, none are left. -/
theorem simplify_leaves_buried {limit : Int} (hlimit : 1 ≤ limit) {t r : Expr α}
    (ht : ∀ n ∈ t.depthFirst, n.kind ≠ .equation) (hr : (simplify limit t).outcome = .ok r) :
    (t.buried = [] → ∀ n ∈ r.depthFirst, n.kind ≠ .nary ∧ n.kind ≠ .polynomial) ∧
    ∀ n ∈ r.depthFirst, n.kind = .nary ∨ n.kind = .polynomial →
      ∃ m ∈ t.buried, n ∈ m.depthFirst := by
  let K : Set (Expr α) := {n | ∃ m ∈ t.buried, n ∈ m.depthFirst}
  have hK : ∀ n ∈ K, n.kind ≠ .equation := by
    rintro n ⟨m, hm, hn⟩
    exact EveryNode.buried ht m hm n hn
  have hP := (shallow_taken hK).shape
  have htaken : EveryNode (Taken K) r := by
    refine taken_of_simplifyWith hK hlimit (fun e r he hr => ?_) ht
      (fun m hm n hn => ⟨m, hm, hn⟩) hr
    obtain hr | ⟨hnone, -⟩ := hP.simplifyAtMost (hP.unmarked he) hr
    · exact hr
    · omega
  have hleft : ∀ n ∈ r.depthFirst, n.kind = .nary ∨ n.kind = .polynomial → n ∈ K := by
    intro n hn hkind
    obtain hsimple | hmem := htaken n hn
    · cases n <;> first | exact hsimple.elim | simp [kind] at hkind
    · exact hmem
  refine ⟨fun hnone n hn => ?_, hleft⟩
  refine not_or.1 fun hkind => ?_
  obtain ⟨m, hm, -⟩ := hleft n hn hkind
  simp [hnone] at hm

/-- In the logarithm of a flat sum the sum becomes a chain, and the mark in it is removed. -/
theorem simplify_leaves_buried_logarithm :
    let t : Expr Float :=
      unary .log (nary .sum [polynomial "x" (binary .mul (var "x") (integer 2)), var "y"])
    let r : Expr Float :=
      unary .log (binary .add (binary .mul (integer 2) (var "x")) (var "y"))
    (simplify 5 t).outcome = .ok r ∧
      ∀ n ∈ r.depthFirst, n.kind ≠ .nary ∧ n.kind ≠ .polynomial := by
  intro t r
  have ht : ∀ n ∈ t.depthFirst, n.kind ≠ .equation := by
    simp [t, depthFirst, depthFirstAll, kind, integer, number]
  have hr : (simplify 5 t).outcome = .ok r := rfl
  exact ⟨hr, (simplify_leaves_buried (by decide) ht hr).1 rfl⟩

/-- A flat sum that is a factor stays a flat sum, and the mark in it stays. -/
theorem simplify_keeps_flat_factor :
    let t : Expr Float := binary .mul
      (nary .sum [polynomial "x" (binary .add (var "x") (integer 1)), var "y"]) (var "z")
    (simplify 64 t).outcome = .ok t ∧ (∃ n ∈ t.depthFirst, n.kind = .nary) ∧
      ∃ n ∈ t.depthFirst, n.kind = .polynomial := by
  intro t
  refine ⟨rfl, ?_, ?_⟩
  · simp [t, depthFirst, depthFirstAll, kind]
  · simp [t, depthFirst, depthFirstAll, kind]

end EquationEngine.Expr
