import EquationEngine.Proofs.Simplify.Meaning.Rules

/-!
Collection of like terms preserves the value of a tree in exact arithmetic.

A sum is taken apart into terms with signs, the terms are entered into a tally of coefficients, and
the tally is written out again. What is kept throughout is the sum of the coefficients times the
values of what they stand for. Powers are looked up by how they are written, which is why distinct
exponents have to be written differently.
-/

namespace EquationEngine.Expr

open Arithmetic

variable [Exact] {E : Set ℚ} {env : Assignment ℚ}

namespace Denotes

theorem signed {s : Sign} {e : Expr ℚ} {v : ℚ} (h : Denotes E env e v) :
    Denotes E env (Expr.signed s e) (s.toInt * v) := by
  cases s
  · exact h.of_eq (by simp [Sign.toInt])
  · exact h.negate.of_eq (by simp [Sign.toInt])

/-- The body of a term, times its coefficient, is the term. -/
theorem splitFrom {c : ℚ} {e : Expr ℚ} {v : ℚ} (h : Denotes E env e v) :
    ∃ x, Denotes E env (Expr.splitFrom c e).2 x ∧ (Expr.splitFrom c e).1 * x = c * v := by
  fun_induction Expr.splitFrom c e generalizing v with
  | case1 c e ih =>
      obtain ⟨x, hx, hc⟩ := ih (neg_iff.1 h)
      exact ⟨x, hx, by rw [hc, neg_mul_neg]⟩
  | case2 c a b k hk ih =>
      obtain ⟨y, z, ha, hb, rfl⟩ := mul_iff.1 h
      obtain ⟨x, hx, hc⟩ := ih hb
      exact ⟨x, hx, by rw [hc, ha.eq_of_constValue hk, mul_assoc]⟩
  | case3 c a b k hk _ ih =>
      obtain ⟨y, z, ha, hb, rfl⟩ := mul_iff.1 h
      obtain ⟨x, hx, hc⟩ := ih ha
      exact ⟨x, hx, by rw [hc, hb.eq_of_constValue hk, mul_assoc, mul_comm k]⟩
  | case6 c a b k hk hzero ih =>
      obtain ⟨y, z, ha, hb, _, rfl⟩ := div_iff.1 h
      obtain ⟨x, hx, hc⟩ := ih ha
      exact ⟨x, hx, by rw [hc, hb.eq_of_constValue hk, div_mul_eq_mul_div, mul_div_assoc]⟩
  | _ => exact ⟨v, h, rfl⟩

end Denotes

/-- Trees with coefficients, all of which have a value, add up to `w`. -/
inductive Weighted (E : Set ℚ) (env : Assignment ℚ) : List (ℚ × Expr ℚ) → ℚ → Prop
  | nil : Weighted E env [] 0
  | cons {c : ℚ} {e : Expr ℚ} {l : List (ℚ × Expr ℚ)} {v w : ℚ} :
      Denotes E env e v → Weighted E env l w → Weighted E env ((c, e) :: l) (c * v + w)

namespace Weighted

theorem of_eq {l : List (ℚ × Expr ℚ)} {v w : ℚ} (h : Weighted E env l v) (hvw : v = w) :
    Weighted E env l w :=
  hvw ▸ h

theorem append {l l' : List (ℚ × Expr ℚ)} {v w : ℚ} (h : Weighted E env l v)
    (h' : Weighted E env l' w) : Weighted E env (l ++ l') (v + w) := by
  induction h with
  | nil => exact h'.of_eq (zero_add w).symm
  | cons he _ ih => exact (ih.cons he).of_eq (add_assoc _ _ _).symm

theorem single {c : ℚ} {e : Expr ℚ} {v : ℚ} (h : Denotes E env e v) :
    Weighted E env [(c, e)] (c * v) :=
  (nil.cons h).of_eq (add_zero _)

theorem addLinear {x : String} {c v w : ℚ} {l : List (String × ℚ)} (hx : Denotes E env (var x) v)
    (h : Weighted E env (l.map fun p => (p.2, var p.1)) w) :
    Weighted E env ((Tally.addLinear x c l).map fun p => (p.2, var p.1)) (w + c * v) := by
  fun_induction Tally.addLinear x c l generalizing w with
  | case1 =>
      cases h
      exact (single hx).of_eq (zero_add _).symm
  | case2 y d rest _ => exact (h.cons hx).of_eq (add_comm _ _)
  | case3 d rest _ =>
      cases h with
      | cons hx' h =>
          obtain rfl := hx.unique hx'
          exact (h.cons hx).of_eq (by ring)
  | case4 y d rest _ _ ih =>
      cases h with
      | cons hy h => exact ((ih h).cons hy).of_eq (add_assoc _ _ _).symm

/-- Powers of one name under the same key have the same exponent, because distinct exponents are
written differently. -/
theorem addPower (htext : Set.InjOn (text : ℚ → String) E) {x : String} {e : Expr ℚ} {c v w : ℚ}
    {l : List ((String × String) × ℚ × Expr ℚ)} (hkeys : ∀ p ∈ l, p.1.2 = p.2.2.render)
    (hx : Denotes E env (binary .pow (var x) e) v)
    (h : Weighted E env (l.map fun p => (p.2.1, binary .pow (var p.1.1) p.2.2)) w) :
    Weighted E env ((Tally.addPower (x, e.render) c e l).map fun p =>
      (p.2.1, binary .pow (var p.1.1) p.2.2)) (w + c * v) := by
  generalize hkey : (x, e.render) = key
  fun_induction Tally.addPower key c e l generalizing w with
  | case1 =>
      cases h
      subst hkey
      exact (single hx).of_eq (zero_add _).symm
  | case2 k d e' rest _ =>
      subst hkey
      exact (h.cons hx).of_eq (add_comm _ _)
  | case3 d e' rest _ =>
      subst hkey
      cases h with
      | cons hx' h =>
          obtain ⟨q, hq, rfl, _⟩ := Denotes.pow_iff.1 hx
          obtain ⟨q', hq', rfl, _⟩ := Denotes.pow_iff.1 hx'
          obtain rfl := htext hq hq' (List.forall_mem_cons.1 hkeys).1
          obtain rfl := hx.unique hx'
          exact (h.cons hx).of_eq (by ring)
  | case4 k d e' rest _ _ ih =>
      cases h with
      | cons hk h =>
          exact ((ih (List.forall_mem_cons.1 hkeys).2 h).cons hk).of_eq (add_assoc _ _ _).symm

theorem addOther {e : Expr ℚ} {c v w : ℚ} {l : List (Expr ℚ × ℚ)} (he : Denotes E env e v)
    (h : Weighted E env (l.map fun p => (p.2, p.1)) w) :
    Weighted E env ((Tally.addOther e c l).map fun p => (p.2, p.1)) (w + c * v) := by
  fun_induction Tally.addOther e c l generalizing w with
  | case1 =>
      cases h
      exact (single he).of_eq (zero_add _).symm
  | case2 b d rest hsame =>
      obtain rfl := Exact.eq_of_beq hsame
      cases h with
      | cons he' h =>
          obtain rfl := he.unique he'
          exact (h.cons he).of_eq (by ring)
  | case3 b d rest _ ih =>
      cases h with
      | cons hb h => exact ((ih h).cons hb).of_eq (add_assoc _ _ _).symm

theorem flatMap {β : Type} {f : β → ℚ × Expr ℚ} {g : β → List (ℚ × Expr ℚ)} {l : List β} {w : ℚ}
    (hg : ∀ b ∈ l, ∀ v, Denotes E env (f b).2 v → Weighted E env (g b) ((f b).1 * v))
    (h : Weighted E env (l.map f) w) : Weighted E env (l.flatMap g) w := by
  induction l generalizing w with
  | nil => exact h
  | cons b l ih =>
      rw [List.forall_mem_cons] at hg
      generalize hb : f b = p at hg
      rw [List.map_cons, hb] at h
      cases h with
      | cons hv h => exact (hg.1 _ hv).append (ih hg.2 h)

end Weighted

/-- The sums found so far add up to `w`, and every power is filed under its written exponent. -/
structure Tally.Amounts (E : Set ℚ) (env : Assignment ℚ) (t : Tally ℚ) (w : ℚ) : Prop where
  keys : ∀ p ∈ t.powers, p.1.2 = p.2.2.render
  parts : ∃ l p o, Weighted E env (t.linear.map fun q => (q.2, var q.1)) l ∧
    Weighted E env (t.powers.map fun q => (q.2.1, binary .pow (var q.1.1) q.2.2)) p ∧
    Weighted E env (t.others.map fun q => (q.2, q.1)) o ∧ w = l + p + t.constant + o

theorem addPower_keys {x : String} {e : Expr ℚ} {c : ℚ}
    {l : List ((String × String) × ℚ × Expr ℚ)} (h : ∀ p ∈ l, p.1.2 = p.2.2.render) :
    ∀ p ∈ Tally.addPower (x, e.render) c e l, p.1.2 = p.2.2.render := by
  generalize hkey : (x, e.render) = key
  fun_induction Tally.addPower key c e l with
  | case1 => simp [← hkey]
  | case2 k d e' rest _ =>
      rw [List.forall_mem_cons]
      exact ⟨by rw [← hkey], h⟩
  | case3 d e' rest _ =>
      rw [List.forall_mem_cons] at h ⊢
      exact h
  | case4 k d e' rest _ _ ih =>
      rw [List.forall_mem_cons] at h ⊢
      exact ⟨h.1, ih h.2⟩

namespace Tally.Amounts

theorem empty : (Tally.empty : Tally ℚ).Amounts E env 0 where
  keys := by simp [Tally.empty]
  parts := ⟨0, 0, 0, .nil, .nil, .nil, by simp [Tally.empty]⟩

theorem add (htext : Set.InjOn (text : ℚ → String) E) {t : Tally ℚ} {e : Expr ℚ} {c v w : ℚ}
    (ht : t.Amounts E env w) (he : Denotes E env e v) : (t.add c e).Amounts E env (w + c * v) := by
  obtain ⟨hkeys, l, p, o, hl, hp, ho, rfl⟩ := ht
  unfold Tally.add
  split
  · rename_i k hk
    refine ⟨hkeys, l, p, o, hl, hp, ho, ?_⟩
    rw [he.eq_of_constValue hk]
    ring
  · split
    · exact ⟨hkeys, _, p, o, hl.addLinear he, hp, ho, by ring⟩
    · exact ⟨addPower_keys hkeys, l, _, o, hl, hp.addPower htext hkeys he, ho, by ring⟩
    · exact ⟨hkeys, l, p, _, hl, hp, ho.addOther he, by ring⟩

theorem ofTerms (htext : Set.InjOn (text : ℚ → String) E) {terms : List (Expr ℚ)} {w : ℚ}
    (h : Weighted E env (terms.map fun e => (1, e)) w) : (ofTerms terms).Amounts E env w := by
  -- the terms entered so far add up to `u`, those still to be entered to `w`
  have hrun : ∀ (t : Tally ℚ) (u : ℚ), t.Amounts E env u →
      (terms.foldl (fun t e => t.add (split e).1 (split e).2) t).Amounts E env (u + w) := by
    induction terms generalizing w with
    | nil =>
        intro t u ht
        cases h
        rwa [add_zero]
    | cons e terms ih =>
        intro t u ht
        cases h with
        | @cons _ _ _ v w he h =>
            obtain ⟨x, hx, hsplit⟩ := Denotes.splitFrom (c := one) he
            have hstep := ih h _ _ (ht.add htext (c := (split e).1) hx)
            have hsum : u + (split e).1 * x + w = u + (1 * v + w) := by
              rw [split, hsplit, Exact.one_eq, add_assoc]
            exact hsum ▸ hstep
  have htotal := hrun _ _ empty
  rwa [zero_add] at htotal

end Tally.Amounts

/-- A tree under a sign as a tree with a coefficient. -/
def weigh (p : Sign × Expr ℚ) : ℚ × Expr ℚ := (p.1.toInt, p.2)

theorem sign_mul_abs (c : ℚ) :
    ((if Arithmetic.lt c zero then Sign.minus else Sign.plus).toInt : ℚ) * |c| = c := by
  simp only [Exact.lt_iff, Exact.zero_eq]
  split_ifs with hneg
  · simp [Sign.toInt, abs_of_neg hneg]
  · simp [Sign.toInt, abs_of_nonneg (not_lt.1 hneg)]

theorem Weighted.item {e : Expr ℚ} {v : ℚ} (c : ℚ) (h : Denotes E env e v) :
    Weighted E env ((Expr.item c e).map weigh) (c * v) := by
  unfold Expr.item
  split
  · rename_i hzero
    rw [Exact.isZero_iff] at hzero
    exact nil.of_eq (by rw [hzero, zero_mul])
  · have hbody : Denotes E env (if isOne (Arithmetic.abs c) then e else
        binary .mul (number (Arithmetic.abs c)) e) (|c| * v) := by
      split_ifs with hone
      · rw [Exact.isOne_iff, Exact.abs_eq] at hone
        exact h.of_eq (by rw [hone, one_mul])
      · exact (Denotes.number _).mul h
    refine (single hbody).of_eq ?_
    rw [← mul_assoc, sign_mul_abs]

theorem Tally.Amounts.items {t : Tally ℚ} {w : ℚ} (h : t.Amounts E env w) :
    Weighted E env (t.items.map weigh) w := by
  obtain ⟨_, l, p, o, hl, hp, ho, rfl⟩ := h
  have hconst : Weighted E env ((if isZero t.constant then [] else
      [(if Arithmetic.lt t.constant zero then Sign.minus else .plus,
        number (Arithmetic.abs t.constant))]).map weigh) t.constant := by
    split
    · rename_i hzero
      rw [Exact.isZero_iff] at hzero
      exact Weighted.nil.of_eq hzero.symm
    · exact (Weighted.single (.number _)).of_eq (sign_mul_abs _)
  simp only [Tally.items, List.map_append, List.map_flatMap]
  refine (((hl.flatMap ?_).append (hp.flatMap ?_)).append hconst).append (ho.flatMap ?_)
  · exact fun q _ v hv => Weighted.item q.2 hv
  · exact fun q _ v hv => Weighted.item q.2.1 hv
  · exact fun q _ v hv => Weighted.item q.2 hv

namespace Denotes

theorem join {first : Expr ℚ} {rest : List (Sign × Expr ℚ)} {v w : ℚ}
    (h : Denotes E env first v) (hrest : Weighted E env (rest.map weigh) w) :
    Denotes E env (Expr.join first rest) (v + w) := by
  induction rest generalizing first v w with
  | nil =>
      cases hrest
      exact h.of_eq (add_zero v).symm
  | cons p rest ih =>
      obtain ⟨s, e⟩ := p
      cases hrest with
      | cons he hrest =>
          cases s
          · exact (ih (h.add he) hrest).of_eq (by simp [Sign.toInt, add_assoc])
          · exact (ih (h.sub he) hrest).of_eq (by simp [Sign.toInt]; ring)

theorem combine (htext : Set.InjOn (text : ℚ → String) E) {terms : List (Expr ℚ)} {w : ℚ}
    (h : Weighted E env (terms.map fun e => (1, e)) w) : Denotes E env (Expr.combine terms) w := by
  have hitems := (Tally.Amounts.ofTerms htext h).items
  unfold Expr.combine
  split
  · rename_i hnone
    rw [hnone] at hitems
    cases hitems
    exact (integer 0).of_eq (by simp)
  · rename_i hsome
    rw [hsome] at hitems
    cases hitems with
    | cons he hrest => exact he.leading.join hrest

/-- Collection keeps the value of a tree, and the terms of a chain add up to it. -/
theorem collect_and_terms (htext : Set.InjOn (text : ℚ → String) E) {e : Expr ℚ} {v : ℚ}
    (h : Denotes E env e v) : Denotes E env (Expr.collect e) v ∧
      ∀ s, Weighted E env ((collectTerms s e).map fun t => (1, t)) (s.toInt * v) := by
  have hleaf {e : Expr ℚ} {v : ℚ} (h : Denotes E env e v) (s : Sign) :
      Weighted E env [(1, Expr.signed s e)] (s.toInt * v) :=
    (Weighted.single h.signed).of_eq (one_mul _)
  induction h with
  | unary _ hv ih => exact ⟨ih.1.apply hv, hleaf (ih.1.apply hv)⟩
  | @binary op a b x y v hop ha hb hv iha ihb =>
      have hnode : Denotes E env (.binary op a.collect b.collect) v := by
        refine .binary (hop.of_const ?_) iha.1 ihb.1 hv
        rintro c rfl
        rfl
      cases op with
      | add =>
          obtain rfl := Except.ok.inj hv
          have hterms (s : Sign) := ((iha.2 s).append (ihb.2 s)).of_eq (mul_add _ x y).symm
          simp only [← List.map_append] at hterms
          exact ⟨(combine htext (hterms .plus)).of_eq (by simp [Sign.toInt]), hterms⟩
      | sub =>
          obtain rfl := Except.ok.inj hv
          have hterms (s : Sign) : Weighted E env ((collectTerms s a ++ collectTerms s.flip b).map
              fun t => (1, t)) (s.toInt * (x - y)) := by
            rw [List.map_append]
            refine ((iha.2 s).append (ihb.2 s.flip)).of_eq ?_
            cases s <;> simp [Sign.toInt, Sign.flip] <;> ring
          exact ⟨(combine htext (hterms .plus)).of_eq (by simp [Sign.toInt]), hterms⟩
      | _ => exact ⟨hnode, hleaf hnode⟩
  | const v => exact ⟨.const v, hleaf (.const v)⟩
  | var hx => exact ⟨.var hx, hleaf (.var hx)⟩
  | nary hes _ => exact ⟨.nary hes, hleaf (.nary hes)⟩
  | polynomial h _ => exact ⟨.polynomial h, hleaf (.polynomial h)⟩

end Denotes

end EquationEngine.Expr
