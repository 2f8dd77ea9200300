import EquationEngine.Proofs.Expr.RoundTrip
import EquationEngine.Proofs.Simplify.Meaning

/-!
Reading and the values of what is read, in exact arithmetic.

A side of polynomial shape is stored simplified, every other side as it was read. Polynomials may
contain remainders, and identity elimination replaces the remainder of anything by one with zero,
so what is stored has the value of what was read wherever no fraction is divided by one.
-/

namespace EquationEngine.Expr

open Arithmetic Grammar

variable [Exact] {env : Assignment ℚ}

/-- A remainder by a divisor with the value one is one of a whole number. -/
def WholeByOne (env : Assignment ℚ) : Expr ℚ → Prop
  | binary .mod a b => ∀ x, eval env a = .ok x → eval env b = .ok 1 → x.den = 1
  | _ => True

/-- The sides of an equation; any other tree is its own only side. -/
def sides {α : Type} : Expr α → List (Expr α)
  | equation _ a b => [a, b]
  | e => [e]

omit [Exact] in
theorem mem_sides_of_simple {V : Set String} {e : Expr ℚ} (h : Simple V e) : e ∈ e.sides := by
  cases e with
  | equation r a b => exact h.elim
  | _ => exact List.mem_singleton_self _

theorem denotes_of_shapeFrom {e : Expr ℚ} {seen r : Option String} {v : ℚ}
    (hshape : shapeFrom seen e = some r) (hwhole : EveryNode (WholeByOne env) e)
    (hv : eval env e = .ok v) : Denotes Set.univ env e v := by
  obtain ⟨x, hpolynomial⟩ := exists_polynomialIn_of_shapeFrom hshape
  clear hshape
  induction hpolynomial generalizing v with
  | const _ => exact Denotes.const_iff.2 ((reading_eval env).const_iff.1 hv)
  | var => exact .var ((reading_eval env).var_iff.1 hv)
  | @power n _ =>
      obtain ⟨u, y, hx, hn, hop⟩ := eval_binary_iff.1 hv
      exact .binary ⟨n, trivial, rfl⟩ (.var ((reading_eval env).var_iff.1 hx))
        (Denotes.const_iff.2 ((reading_eval env).const_iff.1 hn)) hop
  | @binary op a b hjoins _ _ iha ihb =>
      obtain ⟨hroot, hwa, hwb⟩ := everyNode_binary.1 hwhole
      obtain ⟨x, y, hx, hy, hop⟩ := eval_binary_iff.1 hv
      refine .binary ?_ (iha hwa hx) (ihb hwb hy) hop
      cases op with
      | mod =>
          rintro rfl
          exact hroot x hx hy
      | pow => cases hjoins
      | _ => trivial

/-- A side that has a value is stored with that value. -/
theorem tag_preserves_value (htext : Function.Injective Exact.text) (limit : Int) {e : Expr ℚ}
    {v : ℚ} (hsimple : Simple Set.univ e)
    (hwhole : e.isPolynomial = true → EveryNode (WholeByOne env) e) (hv : eval env e = .ok v) :
    ∃ n, (tag limit e).outcome = .ok n ∧ eval env n = .ok v ∧
      evaluate env n = .ok (.number v) := by
  unfold tag
  split
  · rename_i x hx
    have hshape : shapeFrom none e = some (some x) := Option.join_eq_some_iff.1 hx
    have hdenotes := denotes_of_shapeFrom hshape (hwhole (by rw [isPolynomial, hx]; rfl)) hv
    obtain ⟨r, hr, h⟩ := hdenotes.simplify (Set.mem_univ 2) htext.injOn limit
    refine ⟨polynomial x r, ?_, h.polynomial.eval_eq, h.polynomial.evaluate_eq⟩
    exact Run.outcome_bind.2 ⟨r, (Run.outcome_bind_of_ok Run.outcome_consult _).trans hr, rfl⟩
  · refine ⟨e, rfl, hv, ?_⟩
    rw [evaluate_of_simple hsimple, hv]
    rfl

/-- In exact arithmetic identity elimination raises no error on a node that has a value, and it
keeps the value exactly if the rule at the node does not meet degenerate operands; the operands
must have kept theirs. So a text that is read as a tree with a value is stored with that value,
unless a polynomial in it divides a fraction by one. -/
theorem identities_preserve_value :
    (∀ (env : Assignment ℚ) (op : BinaryOp) (a b : Expr ℚ) (v : ℚ),
      eval env (binary op a b) = .ok v → Regular env a → Regular env b →
      ∃ r, dropIdentities (binary op a b) = .ok r ∧
        (eval env r = .ok v ↔ Regular env (binary op a b))) ∧
    (Function.Injective Exact.text →
      ∀ (env : Assignment ℚ) (limit : Int) (text : String) (tokens : Tokens) (t : Expr ℚ)
        (v : Value ℚ),
      Tokens.ofText text = .ok tokens → (Parser.sentence pure tokens).outcome = .ok t →
      evaluate env t = .ok v →
      (∀ s ∈ t.sides, s.isPolynomial = true → EveryNode (WholeByOne env) s) →
      ∃ n, (parse limit text).outcome = .ok n ∧ evaluate env n = .ok v) := by
  constructor
  · intro env op a b v hv hra hrb
    obtain ⟨x, y, ha, hb, -⟩ := eval_binary_iff.1 hv
    obtain ⟨a', ha', heva⟩ := dropIdentities_of_regular ha hra
    obtain ⟨b', hb', hevb⟩ := dropIdentities_of_regular hb hrb
    exact dropIdentities_binary hv hra hrb ha' hb' (heva.trans ha.symm) (hevb.trans hb.symm)
  · intro htext env limit text tokens t v htokens ht hv hwhole
    have hparse : parse (α := ℚ) limit text = Parser.sentence (tag limit) tokens := by
      rw [parse, htokens]
      exact Run.lift_andThen _ _
    have hsimple {ls : List Lexeme} {e : Expr ℚ} (h : Derives .additive ls e) :
        Simple Set.univ e :=
      (simple_of_derives h fun _ _ => trivial).root
    have hsentence := ((Parser.sentence_accepts_grammar tokens).1 t).1 ht
    rw [hparse]
    generalize hls : tokens.list.map (·.lexeme) = ls at hsentence
    cases hsentence with
    | expression h =>
        rw [evaluate_of_simple (hsimple h)] at hv
        obtain ⟨x, hx, hv⟩ := bind_eq_ok.1 hv
        obtain rfl := Except.ok.inj hv
        rw [Parser.sentence_eq_tag (hls ▸ h)]
        obtain ⟨n, hn, -, hvalue⟩ := tag_preserves_value htext limit (hsimple h)
          (hwhole t (mem_sides_of_simple (hsimple h))) hx
        exact ⟨n, hn, hvalue⟩
    | @equation us us' a b r spelledOut ha hb =>
        obtain ⟨x, hx, hv⟩ := bind_eq_ok.1 hv
        obtain ⟨y, hy, hv⟩ := bind_eq_ok.1 hv
        obtain ⟨a', ha', hax, -⟩ := tag_preserves_value htext limit (hsimple ha)
          (hwhole a (by simp [sides])) hx
        obtain ⟨b', hb', hby, -⟩ := tag_preserves_value htext limit (hsimple hb)
          (hwhole b (by simp [sides])) hy
        refine ⟨equation r a' b', ?_, ?_⟩
        · rw [Parser.sentence_eq_equation hls ha hb]
          exact Run.outcome_bind.2 ⟨a', ha', Run.outcome_bind.2 ⟨b', hb', rfl⟩⟩
        · exact bind_eq_ok.2 ⟨x, hax, bind_eq_ok.2 ⟨y, hby, hv⟩⟩

omit [Exact] in
/-- At `x = 3` the remainder `x ^ (x - 3) mod 1` and the polynomial `x mod 1 + x ^ 0` keep their
values. -/
theorem identities_preserve_value_at_three :
    letI := Exact.whole
    let env := Assignment.single "x" (3 : ℚ)
    (∃ r, dropIdentities (binary .mod (binary .pow (var "x") (binary .sub (var "x") (const 3)))
      (const 1)) = .ok r ∧ eval env r = .ok 0) ∧
    ∃ n, (parse 10 "x mod 1 + x ^ 0").outcome = .ok n ∧ evaluate env n = .ok (.number 1) := by
  let _ := Exact.whole
  intro env
  constructor
  · have hpow : eval env (binary .pow (var "x") (binary .sub (var "x") (const 3))) = .ok 1 := by
      decide +kernel
    have hbase : Regular env (binary .pow (var "x") (binary .sub (var "x") (const 3))) := by
      refine ⟨trivial, ⟨trivial, trivial, fun _ _ _ _ _ _ _ _ => id⟩, ?_⟩
      rintro _ _ _ _ ⟨⟩ - - - ⟨hzero, -⟩
      cases hzero
    have hnode : eval env (binary .mod (binary .pow (var "x") (binary .sub (var "x") (const 3)))
        (const 1)) = .ok 0 := by
      decide +kernel
    obtain ⟨r, hr, hiff⟩ := identities_preserve_value.1 env .mod _ _ 0 hnode hbase trivial
    refine ⟨r, hr, hiff.2 ⟨hbase, trivial, ?_⟩⟩
    rintro _ _ x _ - - hx - ⟨-, hden⟩
    obtain rfl := Except.ok.inj (hpow.symm.trans hx)
    exact hden rfl
  · have hx : Derives .primary [.name "x"] (var "x" : Expr ℚ) := .name "x"
    have hone : Derives .unary [.number "1"] (Parser.constant "1" : Expr ℚ) :=
      .unsigned (.base (.number "1"))
    have hzero : Derives .unary [.number "0"] (Parser.constant "0" : Expr ℚ) :=
      .unsigned (.base (.number "0"))
    have hremainder := Derives.remainder (.factor (.unsigned (.base hx))) hone
    have hpower := Derives.unsigned (.exponent hx (by simp) hzero)
    have hsum := Derives.sum (.term hremainder) (.factor hpower)
    refine identities_preserve_value.2 Exact.written_injective env 10 _ _ _ _ rfl
      (Parser.sentence_of_derived (.expression hsum)) ?_ ?_
    · decide +kernel
    · rintro _ (_ | ⟨_, ⟨⟩⟩) -
      have hwhole (x : ℚ) (hx : eval env (var "x") = .ok x) : x.den = 1 := by
        obtain rfl := Except.ok.inj hx
        rfl
      simp only [everyNode_binary, everyNode_var, Parser.constant, number, everyNode_const,
        WholeByOne, and_true, true_and]
      exact fun x hx _ => hwhole x hx

omit [Exact] in
/-- At `x = 1/2` one round replaces `x mod 1` by zero, and so does reading it; at `x = 0` one round
replaces `0 ^ x`, which is one, by zero. -/
theorem identities_change_value :
    letI := Exact.whole
    let half := Assignment.single "x" (1 / 2 : ℚ)
    let origin := Assignment.single "x" (0 : ℚ)
    (eval half (binary .mod (var "x") (const 1)) = .ok (1 / 2) ∧
      ∃ r, dropIdentities (binary .mod (var "x") (const 1)) = .ok r ∧ eval half r = .ok 0) ∧
    (eval origin (binary .pow (const 0) (var "x")) = .ok 1 ∧
      ∃ r, dropIdentities (binary .pow (const 0) (var "x")) = .ok r ∧ eval origin r = .ok 0) ∧
    ∃ n, (parse 10 "x mod 1").outcome = .ok n ∧ evaluate half n = .ok (.number 0) := by
  let _ := Exact.whole
  intro half origin
  refine ⟨⟨by decide +kernel, integer 0, rfl, by decide +kernel⟩,
    ⟨by decide +kernel, integer 0, rfl, by decide +kernel⟩, ?_⟩
  have hscans : Token.Scans "x mod 1".toList [.name "x", .symbol .percent, .number "1"] :=
    fun _ => ⟨_, rfl, rfl⟩
  have hx : Derives .multiplicative [.name "x"] (var "x" : Expr ℚ) :=
    .factor (.unsigned (.base (.name "x")))
  have hremainder := Derives.remainder hx (.unsigned (.base (.number "1")))
  rw [parse_eq_tag hscans (.term hremainder)]
  refine bind_eq_ok.1 (?_ : (_ >>= evaluate half) = .ok (.number 0))
  decide +kernel

end EquationEngine.Expr
