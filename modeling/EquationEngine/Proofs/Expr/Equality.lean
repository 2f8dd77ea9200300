import EquationEngine.Proofs.Expr.Basic
import Mathlib.Data.List.Forall2

/-!
Equality of trees as a relation.

Trees compare equal if they have the same form and their constants compare equal in the same
places. A number that compares with nothing makes a tree unequal to itself, but equality is still
symmetric and transitive if it is so for the constants.
-/

namespace EquationEngine.Expr

variable {α : Type} [BEq α] {s t u : Expr α}

/-! What compares equal to a tree of each form. -/

theorem const_beq {v : α} : (const v == t) = true ↔ ∃ w, t = const w ∧ (v == w) = true := by
  show beq _ t = true ↔ _
  cases t <;> simp [beq]

theorem var_beq {x : String} : (var x == t) = true ↔ t = var x := by
  show beq _ t = true ↔ _
  cases t <;> simp [beq, eq_comm (a := x)]

theorem unary_beq {op : UnaryOp} {e : Expr α} :
    (unary op e == t) = true ↔ ∃ e', t = unary op e' ∧ (e == e') = true := by
  show beq _ t = true ↔ ∃ e', _ ∧ beq _ _ = true
  cases t <;> simp [beq, eq_comm (a := op)]

theorem binary_beq {op : BinaryOp} {a b : Expr α} : (binary op a b == t) = true ↔
    ∃ a' b', t = binary op a' b' ∧ (a == a') = true ∧ (b == b') = true := by
  show beq _ t = true ↔ ∃ a' b', _ ∧ beq _ _ = true ∧ beq _ _ = true
  cases t <;> simp [beq, eq_comm (a := op), and_assoc]

theorem beqAll_iff {es es' : List (Expr α)} :
    beqAll es es' = true ↔ List.Forall₂ (fun a b => (a == b) = true) es es' := by
  induction es generalizing es' with
  | nil => cases es' <;> simp [beqAll]
  | cons e es ih =>
      cases es' with
      | nil => simp [beqAll]
      | cons e' es' =>
          rw [beqAll, Bool.and_eq_true, ih, List.forall₂_cons]
          rfl

theorem nary_beq {op : NaryOp} {es : List (Expr α)} : (nary op es == t) = true ↔
    ∃ es', t = nary op es' ∧ List.Forall₂ (fun a b => (a == b) = true) es es' := by
  show beq _ t = true ↔ _
  cases t <;> simp [beq, eq_comm (a := op), beqAll_iff]

theorem equation_beq {r : Relation} {a b : Expr α} : (equation r a b == t) = true ↔
    ∃ a' b', t = equation r a' b' ∧ (a == a') = true ∧ (b == b') = true := by
  show beq _ t = true ↔ ∃ a' b', _ ∧ beq _ _ = true ∧ beq _ _ = true
  cases t <;> simp [beq, eq_comm (a := r), and_assoc]

theorem polynomial_beq {x : String} {e : Expr α} : (polynomial x e == t) = true ↔
    ∃ e', t = polynomial x e' ∧ (e == e') = true := by
  show beq _ t = true ↔ ∃ e', _ ∧ beq _ _ = true
  cases t <;> simp [beq, eq_comm (a := x)]

/-! Symmetry and transitivity. -/

variable [PartialEquivBEq α]

theorem beq_symm (h : (s == t) = true) : (t == s) = true := by
  induction s generalizing t with
  | const v =>
      obtain ⟨w, rfl, hvw⟩ := const_beq.1 h
      exact const_beq.2 ⟨v, rfl, PartialEquivBEq.symm hvw⟩
  | var x =>
      obtain rfl := var_beq.1 h
      exact h
  | unary op e ih =>
      obtain ⟨e', rfl, he⟩ := unary_beq.1 h
      exact unary_beq.2 ⟨e, rfl, ih he⟩
  | binary op a b iha ihb =>
      obtain ⟨a', b', rfl, ha, hb⟩ := binary_beq.1 h
      exact binary_beq.2 ⟨a, b, rfl, iha ha, ihb hb⟩
  | nary op es ih =>
      obtain ⟨es', rfl, hes⟩ := nary_beq.1 h
      refine nary_beq.2 ⟨es, rfl, ?_⟩
      clear h
      induction hes with
      | nil => exact .nil
      | cons he _ ihes =>
          rw [List.forall_mem_cons] at ih
          exact .cons (ih.1 he) (ihes ih.2)
  | equation r a b iha ihb =>
      obtain ⟨a', b', rfl, ha, hb⟩ := equation_beq.1 h
      exact equation_beq.2 ⟨a, b, rfl, iha ha, ihb hb⟩
  | polynomial x e ih =>
      obtain ⟨e', rfl, he⟩ := polynomial_beq.1 h
      exact polynomial_beq.2 ⟨e, rfl, ih he⟩

theorem beq_trans (h : (s == t) = true) (h' : (t == u) = true) : (s == u) = true := by
  induction s generalizing t u with
  | const v =>
      obtain ⟨w, rfl, hvw⟩ := const_beq.1 h
      obtain ⟨w', rfl, hww⟩ := const_beq.1 h'
      exact const_beq.2 ⟨w', rfl, PartialEquivBEq.trans hvw hww⟩
  | var x =>
      obtain rfl := var_beq.1 h
      exact h'
  | unary op e ih =>
      obtain ⟨e', rfl, he⟩ := unary_beq.1 h
      obtain ⟨e'', rfl, he'⟩ := unary_beq.1 h'
      exact unary_beq.2 ⟨e'', rfl, ih he he'⟩
  | binary op a b iha ihb =>
      obtain ⟨a', b', rfl, ha, hb⟩ := binary_beq.1 h
      obtain ⟨a'', b'', rfl, ha', hb'⟩ := binary_beq.1 h'
      exact binary_beq.2 ⟨a'', b'', rfl, iha ha ha', ihb hb hb'⟩
  | nary op es ih =>
      obtain ⟨es', rfl, hes⟩ := nary_beq.1 h
      obtain ⟨es'', rfl, hes'⟩ := nary_beq.1 h'
      refine nary_beq.2 ⟨es'', rfl, ?_⟩
      clear h h'
      induction hes generalizing es'' with
      | nil => exact hes'
      | cons he _ ihes =>
          rw [List.forall_mem_cons] at ih
          cases hes' with
          | cons he' hes' => exact .cons (ih.1 he he') (ihes ih.2 _ hes')
  | equation r a b iha ihb =>
      obtain ⟨a', b', rfl, ha, hb⟩ := equation_beq.1 h
      obtain ⟨a'', b'', rfl, ha', hb'⟩ := equation_beq.1 h'
      exact equation_beq.2 ⟨a'', b'', rfl, iha ha ha', ihb hb hb'⟩
  | polynomial x e ih =>
      obtain ⟨e', rfl, he⟩ := polynomial_beq.1 h
      obtain ⟨e'', rfl, he'⟩ := polynomial_beq.1 h'
      exact polynomial_beq.2 ⟨e'', rfl, ih he he'⟩

instance : PartialEquivBEq (Expr α) where
  symm := beq_symm
  trans := beq_trans

end EquationEngine.Expr
