import EquationEngine.Proofs.Expr.Readability
import EquationEngine.Proofs.Simplify.Tally

/-!
Powers merged by the text of their exponents.

The tally keeps the first exponent of every name and text. As trees that are written alike have the
same value, a power that is added to another one found before has the same exponent.
-/

namespace EquationEngine.Expr

open Arithmetic

theorem evaluate_of_storable {e : Expr Float} (he : EveryNode Storable e)
    (env : Assignment Float) : evaluate env e = Value.number <$> eval env e := by
  induction e with
  | equation r a b => exact he.root.elim
  | polynomial x e ih => exact ih (everyNode_polynomial.1 he).2
  | _ => rfl

section Tally

variable {α : Type} [Arithmetic α] [PartialEquivBEq α] {es : List (Expr α)} {x : String}

/-- A power found among the terms has an entry in the tally. -/
theorem exists_mem_powers {t e : Expr α} (ht : t ∈ es)
    (hbody : (split t).2 = binary .pow (var x) e) :
    ∃ q ∈ (Tally.ofTerms es).powers, q.1 = (x, e.render) := by
  have hgroups := grouping_grouped (es.map split)
  obtain ⟨g, hg, hmem⟩ := List.mem_flatMap.1
    (hgroups.perm.mem_iff.2 (List.mem_map_of_mem (f := split) ht))
  have hslot : slot g.body = .power x e.render := by
    have htslot : slot (split t).2 = .power x e.render := slot_eq_power.2 ⟨e, hbody, rfl⟩
    obtain hfirst | hrest := List.mem_cons.1 hmem
    · rwa [Group.body, ← hfirst]
    · rw [(alike_iff.1 ((hgroups.exact g hg).alike_of_mem hrest)).1, htslot]
  rw [ofTerms_eq_sums]
  exact ⟨((x, e.render), g.total, exponent g.body),
    List.mem_filterMap.2 ⟨g, hg, power?_eq_some.2 ⟨hslot, rfl⟩⟩, rfl⟩

/-- The exponent kept for a name and a text is that of a term, and is written so. -/
theorem exists_of_mem_powers {q : (String × String) × α × Expr α}
    (hq : q ∈ (Tally.ofTerms es).powers) :
    ∃ t ∈ es, (split t).2 = binary .pow (var q.1.1) q.2.2 ∧ q.2.2.render = q.1.2 := by
  rw [ofTerms_eq_sums] at hq
  obtain ⟨g, hg, hgq⟩ := List.mem_filterMap.1 hq
  obtain ⟨hslot, hentry⟩ := power?_eq_some.1 hgq
  obtain ⟨e, hbody, htext⟩ := slot_eq_power.1 hslot
  have hexponent : q.2.2 = e := by rw [hentry, hbody, exponent]
  obtain ⟨t, ht, hsplit⟩ := List.mem_map.1 ((grouping_grouped (es.map split)).first_mem hg)
  refine ⟨t, ht, ?_, ?_⟩
  · rw [hsplit, hexponent]
    exact hbody
  · rw [hexponent, htext]

end Tally

/-- Trees that are written alike have the same value, so powers are merged only if their exponents
have the same value: each power among the terms is entered under its name and the text of its
exponent, and the exponent kept there has the value of its own. -/
theorem merged_exponents_agree :
    (∀ a b : Expr Float, EveryNode Storable a → EveryNode Storable b → a.render = b.render →
      ∀ env, eval env a = eval env b ∧ evaluate env a = evaluate env b) ∧
    ∀ es : List (Expr Float),
      (∀ t ∈ es, ∀ x e, (split t).2 = binary .pow (var x) e → EveryNode Storable e) →
      ∀ t ∈ es, ∀ x e, (split t).2 = binary .pow (var x) e →
        (∃ q ∈ (Tally.ofTerms es).powers, q.1 = (x, e.render)) ∧
        ∀ q ∈ (Tally.ofTerms es).powers, q.1 = (x, e.render) →
          ∀ env, eval env q.2.2 = eval env e := by
  refine ⟨fun a b ha hb h env => ?_, fun es hes t ht x e hbody => ⟨?_, fun q hq hkey env => ?_⟩⟩
  · have hvalue := eval_eq_of_render_eq ha hb h env
    rw [evaluate_of_storable ha, evaluate_of_storable hb, hvalue]
    exact ⟨rfl, rfl⟩
  · exact exists_mem_powers ht hbody
  · obtain ⟨t', ht', hbody', htext⟩ := exists_of_mem_powers hq
    refine eval_eq_of_render_eq (hes t' ht' _ _ hbody') (hes t ht x e hbody) ?_ env
    rw [htext, hkey]

/-- A negative constant and a negation, of which the first is kept. -/
theorem merged_exponents_agree_negative :
    (∀ env, eval env (polynomial "y" (binary .sub (var "y") (const (-2)))) =
      eval env (binary .sub (var "y") (unary .neg (const (2 : Float))))) ∧
    ∀ q ∈ (Tally.ofTerms [binary .pow (var "x") (const (-2)),
        binary .mul (const 3) (binary .pow (var "x") (unary .neg (const (2 : Float))))]).powers,
      q.1 = ("x", "-2") → ∀ env, eval env q.2.2 = eval env (unary .neg (const 2)) := by
  have htwo : EveryNode Storable (unary .neg (const 2)) :=
    everyNode_unary.2 ⟨trivial, everyNode_const.2 ⟨by decide +kernel, 2, rfl⟩⟩
  have hminus : EveryNode Storable (const (-2)) :=
    everyNode_const.2 ⟨by decide +kernel, -2, rfl⟩
  have hy : EveryNode Storable (var "y") := everyNode_var.2 rfl
  have htext : (unary .neg (const (2 : Float))).render = "-2" := by decide +kernel
  refine ⟨fun env => (merged_exponents_agree.1 _ _ ?_ ?_ (by decide +kernel) env).1,
    htext ▸ (merged_exponents_agree.2 _ ?_ _ (List.mem_cons_of_mem _ (.head _)) "x" _ rfl).2⟩
  · exact everyNode_polynomial.2 ⟨trivial, everyNode_binary.2 ⟨trivial, hy, hminus⟩⟩
  · exact everyNode_binary.2 ⟨trivial, hy, htwo⟩
  · intro t ht x e he
    obtain rfl | ht := List.mem_cons.1 ht
    · cases he
      exact hminus
    · obtain rfl := List.mem_singleton.1 ht
      cases he
      exact htwo

end EquationEngine.Expr
