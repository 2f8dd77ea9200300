import EquationEngine.Expr.Basic

/-!
Induction over trees, maps over their constants, and equality of trees with equal constants.

The operands of a flat sum or product sit in a list, so the induction principle hands out a
hypothesis for each member of it.
-/

namespace EquationEngine.Expr

variable {α : Type}

/-- A property of all trees follows from the operands to the operator. -/
@[elab_as_elim, induction_eliminator]
theorem induction {motive : Expr α → Prop}
    (const : ∀ v, motive (const v))
    (var : ∀ x, motive (var x))
    (unary : ∀ op e, motive e → motive (unary op e))
    (binary : ∀ op a b, motive a → motive b → motive (binary op a b))
    (nary : ∀ op es, (∀ e ∈ es, motive e) → motive (nary op es))
    (equation : ∀ r a b, motive a → motive b → motive (equation r a b))
    (polynomial : ∀ x e, motive e → motive (polynomial x e))
    (e : Expr α) : motive e :=
  match e with
  | .const v => const v
  | .var x => var x
  | .unary op e =>
      unary op e (induction const var unary binary nary equation polynomial e)
  | .binary op a b =>
      binary op a b (induction const var unary binary nary equation polynomial a)
        (induction const var unary binary nary equation polynomial b)
  | .nary op es =>
      nary op es fun e _ => induction const var unary binary nary equation polynomial e
  | .equation r a b =>
      equation r a b (induction const var unary binary nary equation polynomial a)
        (induction const var unary binary nary equation polynomial b)
  | .polynomial x e =>
      polynomial x e (induction const var unary binary nary equation polynomial e)

mutual

/-- Every constant of a tree has a property. -/
def EveryConst (p : α → Prop) : Expr α → Prop
  | const v => p v
  | var _ => True
  | unary _ e => EveryConst p e
  | binary _ a b => EveryConst p a ∧ EveryConst p b
  | nary _ es => EveryConstIn p es
  | equation _ a b => EveryConst p a ∧ EveryConst p b
  | polynomial _ e => EveryConst p e
termination_by structural e => e

/-- Every constant of every tree of a list has a property. -/
def EveryConstIn (p : α → Prop) : List (Expr α) → Prop
  | [] => True
  | e :: es => EveryConst p e ∧ EveryConstIn p es
termination_by structural es => es

end

theorem everyConstIn_iff {p : α → Prop} {es : List (Expr α)} :
    EveryConstIn p es ↔ ∀ e ∈ es, EveryConst p e := by
  induction es with
  | nil => simp [EveryConstIn]
  | cons e es ih => simp [EveryConstIn, ih]

theorem everyConst_of_forall {p : α → Prop} (h : ∀ v, p v) {e : Expr α} : e.EveryConst p := by
  induction e with
  | const v => exact h v
  | var x => trivial
  | unary op e ih => exact ih
  | binary op a b iha ihb => exact ⟨iha, ihb⟩
  | nary op es ih => exact everyConstIn_iff.2 ih
  | equation r a b iha ihb => exact ⟨iha, ihb⟩
  | polynomial x e ih => exact ih

theorem EveryConst.mono {p q : α → Prop} (hpq : ∀ v, p v → q v) {e : Expr α}
    (h : e.EveryConst p) : e.EveryConst q := by
  induction e with
  | const v => exact hpq v h
  | var x => trivial
  | unary op e ih => exact ih h
  | binary op a b iha ihb => exact ⟨iha h.1, ihb h.2⟩
  | nary op es ih =>
      simp only [EveryConst, everyConstIn_iff] at h ⊢
      exact fun e he => ih e he (h e he)
  | equation r a b iha ihb => exact ⟨iha h.1, ihb h.2⟩
  | polynomial x e ih => exact ih h

mutual

/-- The tree with a function applied to its constants. -/
def map {β : Type} (f : α → β) : Expr α → Expr β
  | const v => const (f v)
  | var x => var x
  | unary op e => unary op (map f e)
  | binary op a b => binary op (map f a) (map f b)
  | nary op es => nary op (mapAll f es)
  | equation r a b => equation r (map f a) (map f b)
  | polynomial x e => polynomial x (map f e)
termination_by structural e => e

/-- The trees of a list with a function applied to their constants. -/
def mapAll {β : Type} (f : α → β) : List (Expr α) → List (Expr β)
  | [] => []
  | e :: es => map f e :: mapAll f es
termination_by structural es => es

end

attribute [simp] map

theorem mapAll_eq_map {β : Type} (f : α → β) (es : List (Expr α)) :
    mapAll f es = es.map (map f) := by
  induction es with
  | nil => rfl
  | cons e es ih => simp [mapAll, ih]

theorem map_id (e : Expr α) : e.map id = e := by
  induction e with
  | nary op es ih => simpa [mapAll_eq_map] using List.map_congr_left ih
  | _ => simp [*]

/-- What a function takes equal constants to is the same in trees that compare equal. -/
theorem map_eq_of_beq [BEq α] {β : Type} {f : α → β} {p : α → Prop}
    (hp : ∀ u v, p u → p v → u == v → f u = f v) {s t : Expr α} (hs : s.EveryConst p)
    (ht : t.EveryConst p) (h : (s == t) = true) : s.map f = t.map f := by
  change beq s t = true at h
  induction s generalizing t with
  | const u =>
      cases t <;> simp [beq] at h
      case const v => simp [hp u v hs ht h]
  | var x =>
      cases t <;> simp [beq] at h
      case var y => rw [h]
  | unary op e ih =>
      cases t <;> simp [beq] at h
      case unary op' e' => simp [h.1, @ih e' hs ht h.2]
  | binary op a b iha ihb =>
      cases t <;> simp [beq] at h
      case binary op' a' b' => simp [h.1.1, iha hs.1 ht.1 h.1.2, ihb hs.2 ht.2 h.2]
  | nary op es ih =>
      cases t <;> simp [beq] at h
      case nary op' es' =>
        obtain ⟨rfl, h⟩ := h
        simp only [EveryConst, everyConstIn_iff] at hs ht
        simp only [map, nary.injEq, true_and]
        induction es generalizing es' with
        | nil => cases es' <;> simp_all [beqAll]
        | cons e es ihes =>
            cases es' with
            | nil => simp [beqAll] at h
            | cons e' es' =>
                simp only [beqAll, Bool.and_eq_true] at h
                simp only [List.forall_mem_cons] at ih hs ht
                simp [mapAll, ih.1 hs.1 ht.1 h.1, ihes ih.2 es' h.2 hs.2 ht.2]
  | equation r a b iha ihb =>
      cases t <;> simp [beq] at h
      case equation r' a' b' => simp [h.1.1, iha hs.1 ht.1 h.1.2, ihb hs.2 ht.2 h.2]
  | polynomial x e ih =>
      cases t <;> simp [beq] at h
      case polynomial y e' => simp [h.1, @ih e' hs ht h.2]

/-- Trees that compare equal are equal, if this holds for their constants. -/
theorem eq_of_beq [BEq α] {p : α → Prop} (hp : ∀ u v, p u → p v → u == v → u = v)
    {s t : Expr α} (hs : s.EveryConst p) (ht : t.EveryConst p) (h : (s == t) = true) :
    s = t := by
  rw [← map_id s, ← map_id t]
  exact map_eq_of_beq hp hs ht h

/-- A tree equals itself, if its constants do. -/
theorem beq_self [BEq α] {e : Expr α} (h : e.EveryConst fun v => (v == v) = true) :
    (e == e) = true := by
  show beq e e = true
  induction e with
  | const v => exact h
  | var x => simp [beq]
  | unary op e ih => simpa [beq] using ih h
  | binary op a b iha ihb => simpa [beq] using ⟨iha h.1, ihb h.2⟩
  | nary op es ih =>
      simp only [EveryConst, everyConstIn_iff] at h
      simp only [beq, BEq.rfl, Bool.true_and]
      induction es with
      | nil => rfl
      | cons e es ihes =>
          simp only [List.forall_mem_cons] at ih h
          simpa [beqAll] using ⟨ih.1 h.1, ihes ih.2 h.2⟩
  | equation r a b iha ihb => simpa [beq] using ⟨iha h.1, ihb h.2⟩
  | polynomial x e ih => simpa [beq] using ih h

end EquationEngine.Expr
