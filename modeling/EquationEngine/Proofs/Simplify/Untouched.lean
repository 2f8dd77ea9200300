import EquationEngine.Proofs.Simplify.Bare

/-!
Trees that a sweep leaves untouched.

A sweep is compared with the tree it started from as numbers compare, and a constant that does not
equal itself is known again by the mark of its place. No operation on numbers makes a mark, so a
number with a mark is the constant that stands at this place of the tree. Hence nothing has changed
in a tree that counts as untouched: the sweep gives back that very tree.
-/

namespace EquationEngine.Expr

open Arithmetic

variable {α : Type}

theorem placedAt_bare (place : List Nat) (e : Expr α) : (placedAt place e).bare = e := by
  induction e generalizing place with
  | nary op es ih =>
      simp only [placedAt, map, nary.injEq, true_and]
      generalize 0 = index
      induction es generalizing index with
      | nil => rfl
      | cons e es ihes =>
          simp only [List.forall_mem_cons] at ih
          simp only [placedAllAt, mapAll, ih.1, ihes ih.2]
  | _ => simp [placedAt, *]

/-- The constant at the end of a path of children. -/
def constantAt? : List Nat → Expr α → Option α
  | [], const v => some v
  | [], _ => none
  | i :: path, e => do constantAt? path (← e.children[i]?)

/-- A marked constant that stands, with its value, in a tree whose root is at the given place. -/
def MarkedIn (place : List Nat) (e : Expr α) (c : Placed α) : Prop :=
  ∃ path, c.place = some (path.reverse ++ place) ∧ constantAt? path e = some c.value

theorem everyConst_markedIn_of_child {place : List Nat} {i : Nat} {e child : Expr α}
    (hchild : e.children[i]? = some child) {s : Expr (Placed α)}
    (hs : s.EveryConst (MarkedIn (i :: place) child)) : s.EveryConst (MarkedIn place e) := by
  refine hs.mono fun c ⟨path, hplace, hc⟩ => ⟨i :: path, ?_, ?_⟩
  · simpa using hplace
  · simpa [constantAt?, hchild] using hc

theorem placedAt_markedIn (place : List Nat) (e : Expr α) :
    (placedAt place e).EveryConst (MarkedIn place e) := by
  induction e generalizing place with
  | const v => exact ⟨[], rfl, rfl⟩
  | var x => trivial
  | unary op e ih => exact everyConst_markedIn_of_child rfl (ih _)
  | binary op a b iha ihb =>
      exact ⟨everyConst_markedIn_of_child rfl (iha _), everyConst_markedIn_of_child rfl (ihb _)⟩
  | nary op es ih =>
      -- the operands from some index on, which are the last ones of the node
      suffices ∀ (index : Nat) (front rest : List (Expr α)), es = front ++ rest →
          index = front.length →
          EveryConstIn (MarkedIn place (nary op es)) (placedAllAt place index rest) from
        this 0 [] es rfl rfl
      intro index front rest hes hindex
      induction rest generalizing index front with
      | nil => trivial
      | cons e rest ihrest =>
          refine ⟨everyConst_markedIn_of_child ?_ (ih e (by simp [hes]) _),
            ihrest (index + 1) (front ++ [e]) (by simp [hes]) (by simp [hindex])⟩
          simp [children, hes, hindex]
  | equation r a b iha ihb =>
      exact ⟨everyConst_markedIn_of_child rfl (iha _), everyConst_markedIn_of_child rfl (ihb _)⟩
  | polynomial x e ih => exact everyConst_markedIn_of_child rfl (ih _)

theorem EveryConst.child {p : α → Prop} {e child : Expr α} (h : e.EveryConst p)
    (hchild : child ∈ e.children) : child.EveryConst p := by
  cases e <;> simp only [children, List.mem_cons, List.not_mem_nil, or_false] at hchild
  case unary => exact hchild ▸ h
  case binary => exact hchild.elim (fun he => he ▸ h.1) fun he => he ▸ h.2
  case nary => exact everyConstIn_iff.1 h _ hchild
  case equation => exact hchild.elim (fun he => he ▸ h.1) fun he => he ▸ h.2
  case polynomial => exact hchild ▸ h

theorem EveryConst.constantAt {p : α → Prop} {e : Expr α} {path : List Nat} {v : α}
    (h : e.EveryConst p) (hv : constantAt? path e = some v) : p v := by
  induction path generalizing e with
  | nil =>
      cases e <;> simp [constantAt?] at hv
      exact hv ▸ h
  | cons i path ih =>
      obtain ⟨child, hchild, hv⟩ := Option.bind_eq_some_iff.1 hv
      exact ih (h.child (List.mem_of_getElem? hchild)) hv

/-- What a sweep over a tree may store: a number with the given property which, if it has a mark,
stands at that place of the tree. -/
def Known (p : α → Prop) (e : Expr α) (c : Placed α) : Prop :=
  p c.value ∧ ∀ place, c.place = some place → constantAt? place.reverse e = some c.value

theorem placed_known {p : α → Prop} {e : Expr α} (h : e.EveryConst p) :
    e.placed.EveryConst (Known p e) := by
  refine (placedAt_markedIn [] e).mono fun c ⟨path, hplace, hc⟩ => ⟨h.constantAt hc, ?_⟩
  intro place hsome
  obtain rfl : place = path.reverse := by simpa [hplace] using hsome.symm
  simpa using hc

variable [Arithmetic α]

theorem Known.eq_of_same {p : α → Prop} (hp : ∀ u v, p u → p v → (u == v) = true → u = v)
    {e : Expr α} {c d : Placed α} (hc : Known p e c) (hd : Known p e d)
    (h : Placed.same c d = true) : c.value = d.value := by
  rcases Bool.or_eq_true_iff.1 h with hvalue | hplace
  · exact hp _ _ hc.1 hd.1 hvalue
  · obtain ⟨hsome, hsame⟩ := Bool.and_eq_true_iff.1 hplace
    obtain ⟨place, hplace⟩ := Option.isSome_iff_exists.1 hsome
    have hother : d.place = some place := by
      rw [← hplace]
      exact (LawfulBEq.eq_of_beq hsame).symm
    exact Option.some.inj ((hc.2 _ hplace).symm.trans (hd.2 _ hother))

/-- A sweep that leaves a tree untouched gives back that very tree, if among the numbers that it may
store those that compare equal are equal. -/
theorem eq_of_untouched {p : α → Prop} (hstored : ∀ v, p (settle v))
    (hp : ∀ u v, p u → p v → (u == v) = true → u = v) {e next : Expr α} (he : e.EveryConst p)
    (h : untouched e = true) (hs : sweep e = .ok (.swept next)) : next = e := by
  have hbare : e.placed.bare = e := placedAt_bare [] e
  unfold untouched at h
  split at h
  · rename_i marked hmarked
    have hnext : next = marked.bare := by
      have hsweep := sweep_bare e.placed
      rw [hbare, hs, hmarked] at hsweep
      simpa [Except.map, Sweep.bare] using hsweep
    have hshape : Shape (EveryConst (Known p e)) :=
      shape_everyConst fun v => ⟨hstored v.value, fun _ hplace => by cases hplace⟩
    have hknown : marked.EveryConst (Known p e) :=
      hshape.keeps_sweep (placed_known he) hmarked
    calc next = marked.bare := hnext
      _ = e.placed.bare :=
        @map_eq_of_beq _ ⟨Placed.same⟩ _ _ _
          (fun _ _ hc hd hsame => hc.eq_of_same hp hd hsame) _ _ hknown (placed_known he) h
      _ = e := hbare
  · cases h

end EquationEngine.Expr
