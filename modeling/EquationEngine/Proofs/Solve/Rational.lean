import EquationEngine.Polynomial
import EquationEngine.Solve
import EquationEngine.Proofs.Simplify.Closed

/-!
Solving one-variable rational equations in exact arithmetic.

On the values of the variable at which both sides of the given equation are defined, the search
keeps an equation that holds at the same values: every step of isolation is an equivalence there.
The one step that could lose or gain values divides by a subtree without the variable. If that
subtree is zero, simplifying the quotient raises an error, so such a search does not return.
-/

namespace EquationEngine

open Arithmetic EquationEngine.Expr

namespace Expr

/-- Trees of constants, one variable, negation and the four basic operations, with any part marked
as a polynomial. What is marked is stored in its simplified form, which has the square of the
variable in place of its product with itself; so the square belongs to these trees as well. -/
inductive RationalIn (x : String) : Expr ℚ → Prop
  | const (c : ℚ) : RationalIn x (const c)
  | var : RationalIn x (var x)
  | neg {e : Expr ℚ} : RationalIn x e → RationalIn x (unary .neg e)
  | binary {op : BinaryOp} {a b : Expr ℚ} :
      op.isBasic = true → RationalIn x a → RationalIn x b → RationalIn x (binary op a b)
  | square : RationalIn x (binary .pow (var x) (const 2))
  | polynomial {y : String} {e : Expr ℚ} : RationalIn x e → RationalIn x (polynomial y e)

variable {x : String}

theorem RationalIn.unmarked {e : Expr ℚ} (h : RationalIn x e) : Plain {x} e.unmarked := by
  induction h with
  | const c => exact .const c
  | var => exact .var rfl
  | neg _ ih => exact .neg ih
  | binary hop _ _ iha ihb => exact .binary hop iha ihb
  | square => exact .square rfl
  | polynomial _ ih => exact ih

theorem RationalIn.algebraic {e : Expr ℚ} (h : RationalIn x e) : Algebraic {2} e := by
  induction h with
  | const c => exact .const c
  | var => exact .var x
  | neg _ ih => exact .unary ih
  | @binary op a b hop _ _ iha ihb =>
      refine .binary ?_ iha ihb
      cases op <;> trivial
  | square => exact .binary ⟨2, rfl, rfl⟩ (.var x) (.const 2)
  | polynomial _ ih => exact .polynomial ih

theorem Plain.closed {e : Expr ℚ} (h : Plain {x} e) (hx : e.mentions x = false) : Plain ∅ e := by
  induction h with
  | const c => exact .const c
  | var hy =>
      obtain rfl := Set.mem_singleton_iff.1 hy
      simp [mentions] at hx
  | neg _ ih => exact .neg (ih hx)
  | binary hop _ _ iha ihb =>
      rw [mentions, Bool.or_eq_false_iff] at hx
      exact .binary hop (iha hx.1) (ihb hx.2)
  | square hy =>
      obtain rfl := Set.mem_singleton_iff.1 hy
      simp [mentions] at hx

variable [Exact]

/-- The rational trees in one variable form a class that the passes keep. -/
theorem shape_rationalIn : Shape (RationalIn x) where
  number v := by
    rw [Exact.number_eq]
    exact .const v
  neg h := .neg h
  add ha hb := .binary rfl ha hb
  sub ha hb := .binary rfl ha hb
  mul ha hb := .binary rfl ha hb
  square h := by
    rw [Exact.integer_eq]
    cases h
    exact .square
  operand h := by
    cases h
    assumption
  under h h' := by
    cases h
    exact .neg h'
  left h := by
    cases h with
    | binary _ ha _ => exact ha
    | square => exact .var
  right h := by
    cases h with
    | binary _ _ hb => exact hb
    | square => exact .const 2
  again hop h ha hb := by
    cases h with
    | binary hbasic _ _ => exact .binary hbasic ha hb
    | square => exact absurd rfl hop
  power h := by
    cases h with
    | binary hbasic _ _ => cases hbasic
    | square => exact .inr ⟨_, 2, rfl, rfl⟩
  part h := by cases h
  side h := by cases h
  relate h := by cases h
  body h := by
    cases h
    assumption

/-- What a mark stores of a rational tree is a rational tree, under whatever limit. -/
theorem RationalIn.mark {limit : Int} {y : String} {e r : Expr ℚ} (h : RationalIn x e)
    (hr : (Expr.mark limit y e).outcome = .ok r) : RationalIn x r := by
  obtain ⟨body, hbody, hr⟩ := Run.outcome_bind.1 hr
  obtain ⟨_, _, hbody⟩ := Run.outcome_bind.1 hbody
  cases hr
  exact .polynomial (shape_rationalIn.keeps h hbody)

instance : LawfulSettle ℚ where
  eq_of_beq x y h := by simpa using h

/-- A completed simplification of a rational tree ends in a normal plain tree that has every value
the tree has. -/
theorem Plain.of_simplify {limit : Int} {e r : Expr ℚ} (h : Plain {x} e.unmarked)
    (hr : (e.simplifyConfigured limit).Completes r) :
    Plain {x} r ∧ Normal r ∧
      ∀ env v, Denotes {2} env e v → Denotes {2} env r v := by
  obtain ⟨_, _, hr⟩ := Run.completes_bind.1 hr
  refine ⟨?_, normal_of_simplify ?_ hr, ?_⟩
  · obtain h | ⟨_, hhit⟩ := shape_plain.simplify h hr.1
    · exact h
    · rw [hr.2] at hhit
      cases hhit
  · exact everyConst_of_forall fun v => ⟨v, (Exact.settle_eq v).symm⟩
  · intro env v hv
    obtain ⟨r', hr', hv⟩ := hv.simplify (Set.mem_singleton 2) (Set.injOn_singleton _ _) limit
    obtain rfl := Except.ok.inj (hr.1.symm.trans hr')
    exact hv

omit [Exact] in
theorem simplify_binary {α : Type} [Arithmetic α] (limit : Int) (op : BinaryOp) (a b : Expr α) :
    simplify limit (binary op a b) =
      iterate (simplifyAtMost limit 999) limit limit.toNat 0 (binary op a b) :=
  rfl

/-- Folding and re-association leave a division by the constant zero to identity elimination,
which reports it. -/
theorem not_swept_of_fold_div_zero {e : Expr ℚ} {x : ℚ}
    (hfold : foldConstants e = .ok (binary .div (.const x) (.const 0))) (s : Sweep ℚ) :
    sweep e ≠ .ok s := by
  intro hs
  obtain ⟨f, hf, hs⟩ := sweep_cases hs
  obtain rfl := Except.ok.inj (hfold.symm.trans hf)
  obtain ⟨hconst, _⟩ | ⟨_, flat, hflat, hs⟩ := hs
  · cases hconst
  have hkept : flat = binary .div (.const x) (.const 0) := by
    obtain hroot | ⟨a', b', ⟨⟩, ⟨⟩, rfl⟩ := flattenPeaks_cases hflat
    · simp [flattenRoot, constValue?, reassociate] at hroot
    · rfl
  obtain ⟨hconst, _⟩ | ⟨_, plain, hplain, _⟩ := hs
  · rw [hkept] at hconst
    cases hconst
  · rw [hkept] at hplain
    exact fails_div_zero x plain hplain

/-- A quotient of closed trees of which the divisor is zero is not simplified. -/
theorem not_completes_div_zero {E : Set ℚ} {env : Assignment ℚ} {limit : Int} {a b r : Expr ℚ}
    {x : ℚ} (ha : Plain ∅ a) (hb : Plain ∅ b) (hx : Denotes E env a x) (hy : Denotes E env b 0) :
    ¬((binary .div a b).simplifyConfigured limit).Completes r := by
  intro hr
  obtain ⟨_, _, hr⟩ := Run.completes_bind.1 hr
  have hfold : foldConstants (binary .div a b) = .ok (binary .div (.const x) (.const 0)) := by
    refine bind_eq_ok.2 ⟨_, ha.fold_eq hx, bind_eq_ok.2 ⟨_, hb.fold_eq hy, ?_⟩⟩
    simp [foldBinary, constValue?]
  rw [simplify_binary] at hr
  cases hn : limit.toNat with
  | zero =>
      rw [hn] at hr
      obtain ⟨_, hemit, _⟩ := Run.completes_bind.1 hr
      simp [Event.isBound] at hemit
  | succ n =>
      rw [hn] at hr
      obtain ⟨s, hs, _⟩ := Run.completes_bind.1 hr
      exact not_swept_of_fold_div_zero hfold s (Run.completes_lift.1 hs)

/-- Trees of leaves, unary and binary operators in which a variable does not occur. -/
def Avoids (x : String) : Expr ℚ → Prop
  | const _ => True
  | var y => y ≠ x
  | unary _ e => Avoids x e
  | binary _ a b => Avoids x a ∧ Avoids x b
  | _ => False

theorem shape_avoids : Shape (Avoids x) where
  number _ := trivial
  neg h := h
  add ha hb := ⟨ha, hb⟩
  sub ha hb := ⟨ha, hb⟩
  mul ha hb := ⟨ha, hb⟩
  square h := ⟨h, trivial⟩
  operand h := h
  under _ h := h
  left h := h.1
  right h := h.2
  again _ _ ha hb := ⟨ha, hb⟩
  power _ := .inl fun _ _ ha hb => ⟨ha, hb⟩
  part h := h.elim
  side h := h.elim
  relate h := h.elim
  body h := h.elim

omit [Exact] in
theorem Avoids.mentions {e : Expr ℚ} (h : Avoids x e) : e.mentions x = false := by
  induction e with
  | const v => rfl
  | var y => simpa [Expr.mentions, Expr.Avoids] using h
  | unary op e ih => exact ih h
  | binary op a b iha ihb =>
      rw [Expr.mentions, iha h.1, ihb h.2]
      rfl
  | _ => exact h.elim

theorem Avoids.of_simplify {limit : Int} {e r : Expr ℚ} (h : Avoids x e)
    (hr : (e.simplifyConfigured limit).Completes r) : Avoids x r := by
  obtain ⟨_, _, hr⟩ := Run.completes_bind.1 hr
  exact shape_avoids.keeps h hr.1

end Expr

/-- What a result says about the values of `D` at which an equation `T` holds. -/
def Solution.Describes (D : Set ℚ) (T : ℚ → Prop) (s : Solution ℚ) : Prop :=
  match s.kind with
  | .single => ∃ c, s.values = [.const c] ∧ ∀ q ∈ D, (T q ↔ q = c)
  | .tautology => ∀ q ∈ D, T q
  | .notFound => ∀ q ∈ D, ¬T q
  | .multiple => True

namespace Solver

variable [Exact] {x : String} {D : Set ℚ} {T : ℚ → Prop} {limit maxDepth : Int}

/-- On `D`, both sides have values, and they are equal where `T` holds. -/
def Equated (x : String) (D : Set ℚ) (T : ℚ → Prop) (left right : Expr ℚ) : Prop :=
  ∀ q ∈ D, ∃ u v, Denotes {2} (Assignment.single x q) left u ∧
    Denotes {2} (Assignment.single x q) right v ∧ (T q ↔ u = v)

theorem Equated.symm {left right : Expr ℚ} (h : Equated x D T left right) :
    Equated x D T right left := by
  intro q hq
  obtain ⟨u, v, hu, hv, hT⟩ := h q hq
  exact ⟨v, u, hv, hu, hT.trans eq_comm⟩

/-- The search simplifies the right side first of all. -/
theorem simplifies_right {s : Solver} {n : Nat} {left right : Expr ℚ} {sol : Solution ℚ}
    (h : (search s limit n left right).Completes sol) :
    ∃ r, (right.simplifyConfigured limit).Completes r := by
  cases n with
  | zero => exact absurd h Run.not_completes_fail
  | succ n =>
      obtain ⟨a, _, h⟩ := Run.completes_bind.1 h
      obtain ⟨b, hb, _⟩ := Run.completes_bind.1 h
      exact ⟨b, hb⟩

/-- A bare variable equated with a tree that avoids it has one value. -/
theorem search_var {n : Nat} {e : Expr ℚ} (he : e.Avoids x) {sol : Solution ℚ}
    (h : (search ⟨x, maxDepth⟩ limit n (.var x) e).Completes sol) : ∃ r, sol = .single r := by
  cases n with
  | zero => exact absurd h Run.not_completes_fail
  | succ n =>
      obtain ⟨a, ha, h⟩ := Run.completes_bind.1 h
      obtain ⟨b, hb, h⟩ := Run.completes_bind.1 h
      obtain ⟨_, _, ha⟩ := Run.completes_bind.1 ha
      obtain rfl := Run.completes_pure.1 ha
      have hmain : (Expr.var x : Expr ℚ).mentions x = true := by simp [mentions]
      simp only [hmain, (he.of_simplify hb).mentions] at h
      exact ⟨b, (Run.completes_pure.1 h).symm⟩

/-! The steps of isolation are equivalences on `D`. -/

theorem Equated.moved {left right left' right' : Expr ℚ} (h : Equated x D T left right)
    (hstep : ∀ q ∈ D, ∀ u v, Denotes {2} (Assignment.single x q) left u →
      Denotes {2} (Assignment.single x q) right v →
      ∃ u' v', Denotes {2} (Assignment.single x q) left' u' ∧
        Denotes {2} (Assignment.single x q) right' v' ∧ (u = v ↔ u' = v')) :
    Equated x D T left' right' := by
  intro q hq
  obtain ⟨u, v, hu, hv, hT⟩ := h q hq
  obtain ⟨u', v', hu', hv', heq⟩ := hstep q hq u v hu hv
  exact ⟨u', v', hu', hv', hT.trans heq⟩

theorem Equated.invertLeft {op : BinaryOp} {a b other m o : Expr ℚ} (hclosed : Plain ∅ b)
    (hother : Plain ∅ other) (h : Equated x D T (.binary op a b) other)
    (hmove : Solver.invertLeft op a b other = .ok (m, o))
    (hdone : ∃ r, (o.simplifyConfigured limit).Completes r) (hop : op ≠ .pow) :
    Equated x D T m o := by
  cases op with
  | add =>
      cases hmove
      refine h.moved fun q _ u v hu hv => ?_
      obtain ⟨y, z, ha, hb, rfl⟩ := Denotes.add_iff.1 hu
      exact ⟨y, v - z, ha, hv.sub hb, eq_sub_iff_add_eq.symm⟩
  | sub =>
      cases hmove
      refine h.moved fun q _ u v hu hv => ?_
      obtain ⟨y, z, ha, hb, rfl⟩ := Denotes.sub_iff.1 hu
      exact ⟨y, v + z, ha, hv.add hb, sub_eq_iff_eq_add⟩
  | mul =>
      cases hmove
      refine h.moved fun q _ u v hu hv => ?_
      obtain ⟨y, z, ha, hb, rfl⟩ := Denotes.mul_iff.1 hu
      have hz : z ≠ 0 := by
        rintro rfl
        obtain ⟨r, hr⟩ := hdone
        exact not_completes_div_zero hother hclosed hv hb hr
      exact ⟨y, v / z, ha, hv.div hb hz, (eq_div_iff hz).symm⟩
  | div =>
      cases hmove
      refine h.moved fun q _ u v hu hv => ?_
      obtain ⟨y, z, ha, hb, hz, rfl⟩ := Denotes.div_iff.1 hu
      exact ⟨y, v * z, ha, hv.mul hb, div_eq_iff hz⟩
  | pow => exact absurd rfl hop
  | mod => cases hmove

theorem Equated.invertRight {op : BinaryOp} {a b other m o : Expr ℚ} (hclosed : Plain ∅ a)
    (hother : Plain ∅ other) (h : Equated x D T (.binary op a b) other)
    (hmove : Solver.invertRight op a b other = .ok (m, o))
    (hdone : ∃ r, (o.simplifyConfigured limit).Completes r) (hop : op ≠ .pow) :
    Equated x D T m o := by
  cases op with
  | add =>
      cases hmove
      refine h.moved fun q _ u v hu hv => ?_
      obtain ⟨y, z, ha, hb, rfl⟩ := Denotes.add_iff.1 hu
      exact ⟨z, v - y, hb, hv.sub ha, by rw [eq_sub_iff_add_eq, add_comm]⟩
  | sub =>
      cases hmove
      refine h.moved fun q _ u v hu hv => ?_
      obtain ⟨y, z, ha, hb, rfl⟩ := Denotes.sub_iff.1 hu
      exact ⟨z, y - v, hb, ha.sub hv, by
        rw [sub_eq_iff_eq_add, eq_sub_iff_add_eq, eq_comm, add_comm]⟩
  | mul =>
      cases hmove
      refine h.moved fun q _ u v hu hv => ?_
      obtain ⟨y, z, ha, hb, rfl⟩ := Denotes.mul_iff.1 hu
      have hy : y ≠ 0 := by
        rintro rfl
        obtain ⟨r, hr⟩ := hdone
        exact not_completes_div_zero hother hclosed hv ha hr
      exact ⟨z, v / y, hb, hv.div ha hy, by rw [eq_div_iff hy, mul_comm]⟩
  | div =>
      cases hmove
      refine h.moved fun q _ u v hu hv => ?_
      obtain ⟨y, z, ha, hb, hz, rfl⟩ := Denotes.div_iff.1 hu
      have hv0 : v ≠ 0 := by
        rintro rfl
        obtain ⟨r, hr⟩ := hdone
        exact not_completes_div_zero hclosed hother ha hv hr
      exact ⟨z, y / v, hb, ha.div hv hv0, by rw [div_eq_iff hz, eq_div_iff hv0, eq_comm, mul_comm]⟩
  | pow => exact absurd rfl hop
  | mod => cases hmove

theorem plain_invertLeft {V : Set String} {op : BinaryOp} {a b other m o : Expr ℚ}
    (ha : Plain V a) (hb : Plain V b) (hother : Plain V other) (hop : op ≠ .pow)
    (hmove : invertLeft op a b other = .ok (m, o)) : Plain V m ∧ Plain V o := by
  cases op with
  | add | sub | mul | div =>
      cases hmove
      exact ⟨ha, .binary rfl hother hb⟩
  | pow => exact absurd rfl hop
  | mod => cases hmove

omit [Exact] in
theorem plain_invertRight {V : Set String} {op : BinaryOp} {a b other m o : Expr ℚ}
    (ha : Plain V a) (hb : Plain V b) (hother : Plain V other) (hop : op ≠ .pow)
    (hmove : invertRight op a b other = .ok (m, o)) : Plain V m ∧ Plain V o := by
  cases op with
  | add | mul =>
      cases hmove
      exact ⟨hb, .binary rfl hother ha⟩
  | sub | div =>
      cases hmove
      exact ⟨hb, .binary rfl ha hother⟩
  | pow => exact absurd rfl hop
  | mod => cases hmove

/-- Both roots of an even power are values, so the result has several. -/
theorem invertPower_kind {n : Nat} {d : ℚ} {sol : Solution ℚ}
    (h : (invertPower (search ⟨x, maxDepth⟩ limit n) limit (.var x) (.const 2)
      (.const d)).Completes sol) : sol.kind = .multiple := by
  obtain ⟨root, hroot, h⟩ := Run.completes_bind.1 h
  have heven : isEvenInteger (.const 2 : Expr ℚ) = true := rfl
  rw [if_pos heven] at h
  obtain ⟨negated, hnegated, h⟩ := Run.completes_bind.1 h
  obtain ⟨_, _, h⟩ := Run.completes_bind.1 h
  obtain ⟨first, hfirst, h⟩ := Run.completes_bind.1 h
  obtain ⟨second, hsecond, h⟩ := Run.completes_bind.1 h
  have havoids : root.Avoids x := by
    refine Avoids.of_simplify (e := rootOf (.const d) (.const 2)) ?_ hroot
    exact ⟨trivial, trivial, trivial⟩
  have havoids' : negated.Avoids x := by
    refine Avoids.of_simplify (e := .binary .mul (.integer (-1)) root) ?_ hnegated
    exact ⟨trivial, havoids⟩
  obtain ⟨r, rfl⟩ := search_var havoids hfirst
  obtain ⟨r', rfl⟩ := search_var havoids' hsecond
  rw [← Run.completes_pure.1 h]
  rfl

/-- One step of isolation, given what the search below it says. -/
theorem isolate_describes {n : Nat}
    (ih : ∀ {left right : Expr ℚ} {sol : Solution ℚ}, Plain {x} left.unmarked →
      Plain {x} right.unmarked → Equated x D T left right →
      (search ⟨x, maxDepth⟩ limit n left right).Completes sol → sol.Describes D T)
    {main : Expr ℚ} {d : ℚ} {sol : Solution ℚ} (hmain : Plain {x} main)
    (hx : main.mentions x = true) (heq : Equated x D T main (.const d))
    (h : (isolate ⟨x, maxDepth⟩ (search ⟨x, maxDepth⟩ limit n) limit main
      (.const d)).Completes sol) : sol.Describes D T := by
  have hplain {e : Expr ℚ} (he : Plain {x} e) : Plain {x} e.unmarked := shape_plain.unmarked he
  cases hmain with
  | const c => simp [mentions] at hx
  | var hy =>
      obtain rfl := Run.completes_pure.1 h
      refine ⟨d, rfl, fun q hq => ?_⟩
      obtain ⟨u, v, hu, hv, hT⟩ := heq q hq
      obtain rfl := Set.mem_singleton_iff.1 hy
      have hqu : q = u := by simpa [Assignment.single] using Denotes.var_iff.1 hu
      rw [hT, hqu, Denotes.const_iff.1 hv]
  | neg he =>
      obtain ⟨_, _, h⟩ := Run.completes_bind.1 h
      refine ih (hplain he) (hplain (shape_plain.negate (.const d))) (heq.moved ?_) h
      intro q _ u v hu hv
      exact ⟨-u, -v, Denotes.neg_iff.1 hu, hv.negate, neg_inj.symm⟩
  | square hy =>
      obtain rfl := Set.mem_singleton_iff.1 hy
      simp only [isolate, mentions, beq_self_eq_true, if_true] at h
      rw [Solution.Describes, invertPower_kind h]
      trivial
  | @binary op a b hop ha hb =>
      have hpow : op ≠ .pow := by
        rintro rfl
        cases hop
      -- the operand without the variable moves to the other side; that nothing was divided by zero
      -- follows from the search below, which completes
      simp only [isolate] at h
      split at h
      · exact absurd h Run.not_completes_fail
      · rename_i hbx
        rw [if_neg hpow] at h
        obtain ⟨⟨m, o⟩, hmove, h⟩ := Run.completes_bind.1 h
        obtain ⟨_, _, h⟩ := Run.completes_bind.1 h
        rw [Run.completes_lift] at hmove
        obtain ⟨hm, ho⟩ := plain_invertLeft ha hb (.const d) hpow hmove
        exact ih (hplain hm) (hplain ho) (heq.invertLeft (hb.closed hbx) (.const d) hmove
          (simplifies_right h) hpow) h
      · rename_i hax
        obtain ⟨⟨m, o⟩, hmove, h⟩ := Run.completes_bind.1 h
        obtain ⟨_, _, h⟩ := Run.completes_bind.1 h
        rw [Run.completes_lift] at hmove
        obtain ⟨hm, ho⟩ := plain_invertRight ha hb (.const d) hpow hmove
        exact ih (hplain hm) (hplain ho) (heq.invertRight (ha.closed hax) (.const d) hmove
          (simplifies_right h) hpow) h

/-- A completed search describes the values at which its equation holds. -/
theorem search_describes {n : Nat} {left right : Expr ℚ} {sol : Solution ℚ}
    (hl : Plain {x} left.unmarked) (hr : Plain {x} right.unmarked)
    (heq : Equated x D T left right)
    (h : (search ⟨x, maxDepth⟩ limit n left right).Completes sol) : sol.Describes D T := by
  induction n generalizing left right sol with
  | zero => exact absurd h Run.not_completes_fail
  | succ n ih =>
      obtain ⟨a, ha, h⟩ := Run.completes_bind.1 h
      obtain ⟨b, hb, h⟩ := Run.completes_bind.1 h
      obtain ⟨hpa, hna, hda⟩ := hl.of_simplify ha
      obtain ⟨hpb, hnb, hdb⟩ := hr.of_simplify hb
      have heq : Equated x D T a b := by
        refine heq.moved fun q _ u v hu hv => ?_
        exact ⟨u, v, hda _ u hu, hdb _ v hv, Iff.rfl⟩
      dsimp only at h
      split at h
      -- without the variable both sides are numbers; with it on both, their difference is searched
      · rename_i hax hbx
        obtain ⟨c, rfl⟩ := (hpa.closed hax).eq_const_of_normal hna
        obtain ⟨d, rfl⟩ := (hpb.closed hbx).eq_const_of_normal hnb
        have hconst : ∀ q ∈ D, (T q ↔ c = d) := by
          intro q hq
          obtain ⟨u, v, hu, hv, hT⟩ := heq q hq
          rwa [Denotes.const_iff.1 hu, Denotes.const_iff.1 hv] at hT
        rw [← Run.completes_pure.1 h]
        split_ifs with hcd
        · exact fun q hq => (hconst q hq).2 ((Exact.beq_iff c d).1 hcd)
        · exact fun q hq hT => hcd ((Exact.beq_iff c d).2 ((hconst q hq).1 hT))
      · obtain ⟨_, _, h⟩ := Run.completes_bind.1 h
        refine ih ?_ ?_ (heq.moved ?_) h
        · exact shape_plain.unmarked (.binary rfl hpa hpb)
        · exact shape_plain.number _
        · intro q _ u v hu hv
          exact ⟨u - v, 0, hu.sub hv, Denotes.integer 0, sub_eq_zero.symm⟩
      · rename_i hax hbx
        obtain ⟨d, rfl⟩ := (hpb.closed hbx).eq_const_of_normal hnb
        exact isolate_describes ih hpa hax heq h
      · rename_i hax hbx
        obtain ⟨c, rfl⟩ := (hpa.closed hax).eq_const_of_normal hna
        exact isolate_describes ih hpb hbx heq.symm h

end Solver

namespace Expr

variable [Exact]

/-- The values of a variable at which both sides of an equation are defined. -/
def commonDomain (x : String) (left right : Expr ℚ) : Set ℚ :=
  {q | ∃ u v, eval (Assignment.single x q) left = .ok u ∧
    eval (Assignment.single x q) right = .ok v}

/-- Both sides of an equation evaluate alike. -/
def Agree (x : String) (left right : Expr ℚ) (q : ℚ) : Prop :=
  eval (Assignment.single x q) left = eval (Assignment.single x q) right

theorem agree_iff {x : String} {left right : Expr ℚ} {q u v : ℚ}
    (hu : eval (Assignment.single x q) left = .ok u)
    (hv : eval (Assignment.single x q) right = .ok v) : Agree x left right q ↔ u = v := by
  rw [Agree, hu, hv, Except.ok.injEq]

/-- A solver run on a rational equation in one variable that returns, and in which no
simplification stops at its bound, classifies the equation correctly on the values at which both
sides are defined: a single solution is a constant and the only value at which the sides agree, a
tautology holds at every such value, and an equation without solution at none. -/
theorem solveFor_classifies {x : String} {left right : Expr ℚ} (hl : left.RationalIn x)
    (hr : right.RationalIn x) {limit maxDepth : Int} {s : Solution ℚ}
    (hs : (solveFor limit maxDepth x (equation .eq left right)).outcome = .ok s)
    (hbound : (solveFor limit maxDepth x (equation .eq left right)).hitBound = false) :
    (s.kind = .single → ∃ c, s.values = [const c] ∧
      ∀ q u v, eval (Assignment.single x q) left = .ok u →
        eval (Assignment.single x q) right = .ok v → (u = v ↔ q = c)) ∧
    (s.kind = .tautology → ∀ q u v, eval (Assignment.single x q) left = .ok u →
      eval (Assignment.single x q) right = .ok v → u = v) ∧
    (s.kind = .notFound → ∀ q u v, eval (Assignment.single x q) left = .ok u →
      eval (Assignment.single x q) right = .ok v → u ≠ v) := by
  have hrun : (Solver.solve ⟨x, maxDepth⟩ limit .eq left right).Completes s := ⟨hs, hbound⟩
  rw [Solver.solve, if_pos rfl] at hrun
  obtain ⟨sol, hsearch, hrun⟩ := Run.completes_bind.1 hrun
  obtain ⟨_, _, hrun⟩ := Run.completes_bind.1 hrun
  obtain rfl := Run.completes_pure.1 hrun
  have heq : Solver.Equated x (commonDomain x left right) (Agree x left right) left right := by
    rintro q ⟨u, v, hu, hv⟩
    exact ⟨u, v, hl.algebraic.denotes hu, hr.algebraic.denotes hv, agree_iff hu hv⟩
  have hdescribes := Solver.search_describes hl.unmarked hr.unmarked heq hsearch
  rw [Solution.Describes] at hdescribes
  refine ⟨fun hkind => ?_, fun hkind => ?_, fun hkind => ?_⟩ <;> rw [hkind] at hdescribes
  · obtain ⟨c, hc, hiff⟩ := hdescribes
    refine ⟨c, hc, fun q u v hu hv => ?_⟩
    rw [← agree_iff hu hv]
    exact hiff q ⟨u, v, hu, hv⟩
  · intro q u v hu hv
    exact (agree_iff hu hv).1 (hdescribes q ⟨u, v, hu, hv⟩)
  · intro q u v hu hv huv
    exact hdescribes q ⟨u, v, hu, hv⟩ ((agree_iff hu hv).2 huv)

omit [Exact] in
set_option maxRecDepth 20000 in
/-- Both sides of `x * x + x = x * x + 3` are marked as polynomials and stored with the square of
`x`. The equation is found to have the single solution `3`, and at every other value the sides
differ. -/
theorem solveFor_classifies_square :
    letI := Exact.whole
    let product : Expr ℚ := binary .mul (var "x") (var "x")
    let square : Expr ℚ := binary .pow (var "x") (const 2)
    let left : Expr ℚ := polynomial "x" (binary .add (var "x") square)
    let right : Expr ℚ := polynomial "x" (binary .add square (const 3))
    (mark 20 "x" (binary .add product (var "x"))).outcome = .ok left ∧
      (mark 20 "x" (binary .add product (const 3))).outcome = .ok right ∧
      (solveFor 20 20 "x" (equation .eq left right)).outcome = .ok (.single (const 3)) ∧
      ∀ q u v, eval (Assignment.single "x" q) left = .ok u →
        eval (Assignment.single "x" q) right = .ok v → (u = v ↔ q = 3) := by
  intro product square left right
  have hl : left.RationalIn "x" := .polynomial (.binary rfl .var .square)
  have hr : right.RationalIn "x" := .polynomial (.binary rfl .square (.const 3))
  have hs : (@solveFor ℚ (@Exact.instArithmeticRat Exact.whole) 20 20 "x"
      (equation .eq left right)).outcome = .ok (.single (const 3)) := by
    with_unfolding_all rfl
  have hbound : (@solveFor ℚ (@Exact.instArithmeticRat Exact.whole) 20 20 "x"
      (equation .eq left right)).hitBound = false := by
    decide +kernel
  obtain ⟨c, ⟨⟩, hiff⟩ :=
    (@solveFor_classifies Exact.whole "x" _ _ hl hr 20 20 _ hs hbound).1 rfl
  exact ⟨by with_unfolding_all rfl, by with_unfolding_all rfl, hs, hiff⟩

end Expr

end EquationEngine
