import EquationEngine.Proofs.Exact
import EquationEngine.Proofs.Simplify.Canonical

/-!
Term collection and the order of terms.

Two terms that are entered into a tally one after the other meet in one of its accumulators or in
none. The accumulators with keys are sorted, so only the sums and the stored exponents could depend
on the order. Exact sums do not, and neither do the exponents of like powers if these are constants
and constants are told apart by their texts. A sum of constants, variables and powers of variables
is therefore collected to the same chain in whatever order and with whatever brackets it is
written.
-/

namespace EquationEngine.Expr

open Arithmetic

/-- The bodies of the terms of a polynomial: constants, variables, and variables raised to a
constant. -/
inductive Monomial {α : Type} [Arithmetic α] : Expr α → Prop
  | constant {e : Expr α} {v : α} (h : constValue? e = some v) : Monomial e
  | name (x : String) : Monomial (var x)
  | power (x : String) (c : α) : Monomial (binary .pow (var x) (const c))

variable [Exact]

namespace Monomial

theorem slot_ne_other {e : Expr ℚ} (h : Monomial e) : slot e ≠ .other := by
  cases h with
  | constant hv =>
      rw [slot_eq_constant.2 ⟨_, hv⟩]
      nofun
  | name x => nofun
  | power x c => nofun

/-- Powers with one name and one written exponent have the same exponent. -/
theorem exponent_eq (htext : Function.Injective Exact.text) {e f : Expr ℚ} (he : Monomial e)
    (hf : Monomial f) {x text : String} (hslot : slot e = .power x text)
    (hslot' : slot f = .power x text) : exponent e = exponent f := by
  have hconstant {e : Expr ℚ} (he : Monomial e) (hslot : slot e = .power x text) :
      ∃ c, exponent e = const c ∧ Exact.text c = text := by
    cases he with
    | constant hv =>
        rw [slot_eq_constant.2 ⟨_, hv⟩] at hslot
        cases hslot
    | name y => cases hslot
    | power y c =>
        obtain ⟨e, hbody, htext⟩ := slot_eq_power.1 hslot
        cases hbody
        exact ⟨c, rfl, htext⟩
  obtain ⟨c, hc, hctext⟩ := hconstant he hslot
  obtain ⟨d, hd, hdtext⟩ := hconstant hf hslot'
  rw [hc, hd, htext (hctext.trans hdtext.symm)]

end Monomial

namespace Tally

/-! In each accumulator it makes no difference which of two amounts is added first. -/

theorem addLinear_comm (x y : String) (c d : ℚ) (linear : List (String × ℚ)) :
    addLinear x c (addLinear y d linear) = addLinear y d (addLinear x c linear) := by
  have hsum (v : ℚ) : v + d + c = v + c + d := add_right_comm v d c
  have hpair : d + c = c + d := add_comm d c
  induction linear with
  | nil => grind [addLinear]
  | cons entry linear ih => grind [addLinear]

theorem addPower_comm {k l : String × String} {e f : Expr ℚ} (hkey : k = l → e = f) (c d : ℚ)
    (powers : List ((String × String) × ℚ × Expr ℚ)) :
    addPower k c e (addPower l d f powers) = addPower l d f (addPower k c e powers) := by
  have hsum (v : ℚ) : v + d + c = v + c + d := add_right_comm v d c
  have hpair : d + c = c + d := add_comm d c
  induction powers with
  | nil => grind [addPower, keyLess]
  | cons entry powers ih => grind [addPower, keyLess]

/-- Two terms of a polynomial may be entered in either order. -/
theorem add_right_comm_of_monomial (htext : Function.Injective Exact.text) {p q : ℚ × Expr ℚ}
    (hp : Monomial p.2) (hq : Monomial q.2) (t : Tally ℚ) :
    (t.add p.1 p.2).add q.1 q.2 = (t.add q.1 q.2).add p.1 p.2 := by
  rw [add_eq t p, add_eq t q, add_eq _ q, add_eq _ p]
  cases hslot : slot p.2 with
  | other => exact absurd hslot hp.slot_ne_other
  | name x =>
      cases hslot' : slot q.2 with
      | other => exact absurd hslot' hq.slot_ne_other
      | name y => exact congrArg (fun l => { t with linear := l }) (addLinear_comm ..)
      | _ => rfl
  | power x text =>
      cases hslot' : slot q.2 with
      | other => exact absurd hslot' hq.slot_ne_other
      | power y text' =>
          refine congrArg (fun l => { t with powers := l }) (addPower_comm ?_ ..)
          rintro ⟨⟩
          exact Monomial.exponent_eq htext hq hp hslot' hslot
      | _ => rfl
  | constant =>
      cases hslot' : slot q.2 with
      | other => exact absurd hslot' hq.slot_ne_other
      | constant => exact congrArg (fun c => { t with constant := c }) (add_right_comm ..)
      | _ => rfl

theorem ofTerms_eq_of_perm (htext : Function.Injective Exact.text) {es es' : List (Expr ℚ)}
    (h : es.Perm es') (hbody : ∀ e ∈ es, Monomial (split e).2) :
    Tally.ofTerms es = Tally.ofTerms es' :=
  h.foldl_eq' (fun e he e' he' t =>
    add_right_comm_of_monomial (p := split e) (q := split e') htext (hbody e he) (hbody e' he') t) _

end Tally

/-- In exact arithmetic, two sums whose terms are the same up to their order are collected to the
same tree, if the terms are multiples of constants, of variables and of variables raised to
constants: neither the brackets of the sums nor the order of their operands matter, and a
difference is as good as the sum with a negated term. -/
theorem collect_eq_of_perm (htext : Function.Injective Exact.text) {op op' : BinaryOp}
    (hop : op = .add ∨ op = .sub) (hop' : op' = .add ∨ op' = .sub) {a b a' b' : Expr ℚ}
    (hperm : (terms (binary op a b)).Perm (terms (binary op' a' b')))
    (hbody : ∀ e ∈ terms (binary op a b), Monomial (split e).2) :
    collect (binary op a b) = collect (binary op' a' b') := by
  rw [collect_eq_combine hop, collect_eq_combine hop', combine, combine,
    Tally.ofTerms_eq_of_perm htext hperm hbody]

omit [Exact] in
/-- The sums `(3 * x + y ^ 2) - (2 - x / 2)` and `(x / 2 + -2) + (y ^ 2 + 3 * x)` are both collected
to `3.5 * x + y ^ 2 - 2`. -/
theorem collect_eq_of_perm_reversed :
    letI := Exact.whole
    let triple : Expr ℚ := binary .mul (const 3) (var "x")
    let half : Expr ℚ := binary .div (var "x") (const 2)
    let square : Expr ℚ := binary .pow (var "y") (const 2)
    let collected : Expr ℚ :=
      binary .sub (binary .add (binary .mul (const (7 / 2)) (var "x")) square) (const 2)
    collect (binary .sub (binary .add triple square) (binary .sub (const 2) half)) = collected ∧
      collect (binary .add (binary .add half (unary .neg (const 2)))
        (binary .add square triple)) = collected := by
  let _ := Exact.whole
  intro triple half square collected
  have hcollect : collect (binary .sub (binary .add triple square) (binary .sub (const 2) half)) =
      collected := Exact.eq_of_beq (by decide +kernel)
  refine ⟨hcollect, (Eq.symm ?_).trans hcollect⟩
  refine collect_eq_of_perm Exact.written_injective (.inr rfl) (.inl rfl)
    (List.reverse_perm _).symm ?_
  have hterms : terms (binary .sub (binary .add triple square) (binary .sub (const 2) half)) =
      [triple, square, unary .neg (const 2), half] := rfl
  simp only [hterms, List.forall_mem_cons, List.not_mem_nil, false_implies, implies_true, and_true]
  exact ⟨.name _, .power _ _, .constant rfl, .name _⟩

end EquationEngine.Expr
