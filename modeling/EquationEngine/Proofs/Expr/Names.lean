import EquationEngine.Proofs.Expr.RoundTrip

/-!
The names in a tree, and the two ways to ask for them.

No pass brings in a name: variables are rebuilt from names that were there. The search for a
variable trusts the mark of a polynomial, while the list of names also looks below it. The two agree
on whatever is read, because what is stored under a mark has no other name than the mark.
-/

namespace EquationEngine.Expr

open Arithmetic Grammar

variable {α : Type}

/-- A node that brings in no name, or one of `V`. -/
def Named (V : Set String) (n : Expr α) : Prop := ∀ y, n.ownName? = some y → y ∈ V

theorem shallow_named {V : Set String} : Shallow (Named V : Expr α → Prop) where
  const _ := nofun
  neg _ := nofun
  add _ _ := nofun
  sub _ _ := nofun
  mul _ _ := nofun
  pow _ _ := nofun
  unary _ _ := nofun
  binary _ _ _ := nofun
  equation _ _ _ := nofun

theorem everyNode_named_iff {V : Set String} {e : Expr α} :
    EveryNode (Named V) e ↔ ∀ y ∈ e.names, y ∈ V := by
  simp only [mem_names, EveryNode, Named]
  constructor
  · rintro h y ⟨n, hn, hy⟩
    exact h n hn y hy
  · exact fun h n hn y hy => h y ⟨n, hn, hy⟩

/-- What keeps every shape brings in no names. -/
theorem names_subset_of_shapes [Arithmetic α] {e r : Expr α}
    (h : ∀ {P : Expr α → Prop}, Shape P → P e → P r) : r.names ⊆ e.names := by
  have hself : EveryNode (Named {y | y ∈ e.names}) e := everyNode_named_iff.2 fun _ hy => hy
  exact fun y hy => everyNode_named_iff.1 (h shallow_named.shape hself) y hy

/-- The search for a variable and the list of names agree on a tree. -/
def Agrees (e : Expr α) : Prop := ∀ x, e.mentions x = true ↔ x ∈ e.names

theorem Agrees.equation {a b : Expr α} (ha : Agrees a) (hb : Agrees b) (r : Relation) :
    Agrees (equation r a b) := by
  intro x
  rw [mentions, Bool.or_eq_true, ha x, hb x, mem_names_iff (e := .equation r a b)]
  simp [ownName?, children]

theorem agrees_polynomial {e : Expr α} {x : String} (h : ∀ y ∈ e.names, y = x) :
    Agrees (polynomial x e) := by
  intro y
  rw [mentions, mem_names_iff, beq_iff_eq]
  simp only [ownName?, children, List.mem_singleton, exists_eq_left, Option.some.injEq]
  exact ⟨.inl, fun hy => hy.elim id fun hy => (h y hy).symm⟩

variable [Arithmetic α]

theorem agrees_of_tag {limit : Int} {V : Set String} {e n : Expr α}
    (h : EveryNode (Simple V) e) (hn : (tag limit e).outcome = .ok n) : Agrees n := by
  unfold tag at hn
  split at hn
  · rename_i x hx
    have hshape : PolynomialIn x e := (polynomialVariable?_eq_some_iff.1 hx).1
    obtain ⟨body, hbody, hn⟩ := Run.outcome_bind.1 hn
    cases hn
    obtain ⟨_, -, hbody⟩ := Run.outcome_bind.1 hbody
    refine agrees_polynomial fun y hy => ?_
    have hsubset : body.names ⊆ e.names := names_subset_of_shapes fun hP he => hP.keeps he hbody
    exact hshape.reduced.simple.names_subset (hsubset hy)
  · cases hn
    exact fun x => h.mentions_iff

theorem agrees_of_parse {limit : Int} {text : String} {n : Expr α}
    (h : (parse limit text).outcome = .ok n) : Agrees n := by
  obtain ⟨tokens, -, h⟩ := Run.outcome_bind.1 h
  have hstored := Parser.stored_of_outcome h
  have hsimple {ls : List Lexeme} {e : Expr α} (h : Derives .additive ls e) :
      EveryNode (Simple Set.univ) e := simple_of_derives h fun _ _ => trivial
  generalize tokens.list.map (·.lexeme) = ls at hstored
  cases hstored with
  | expression he htag => exact agrees_of_tag (hsimple he) htag
  | equation r _ ha hatag hb hbtag =>
      exact (agrees_of_tag (hsimple ha) hatag).equation (agrees_of_tag (hsimple hb) hbtag) r

/-- Neither simplification nor any of its passes brings in a name. So for whatever is read, the
search for a variable finds exactly the names that are listed. -/
theorem simplify_brings_in_no_names :
    (∀ (limit : Int) (t r : Expr α), (simplify limit t).outcome = .ok r → r.names ⊆ t.names) ∧
    (∀ t r : Expr α, foldConstants t = .ok r → r.names ⊆ t.names) ∧
    (∀ t r : Expr α, flattenPeaks t = .ok r → r.names ⊆ t.names) ∧
    (∀ t r : Expr α, dropIdentities t = .ok r → r.names ⊆ t.names) ∧
    (∀ t : Expr α, (collect t).names ⊆ t.names) ∧
    ∀ (limit : Int) (text : String) (n : Expr α), (parse limit text).outcome = .ok n →
      ∀ x, n.mentions x = true ↔ x ∈ n.names := by
  refine ⟨fun limit t r hr => ?_, fun t r hr => ?_, fun t r hr => ?_, fun t r hr => ?_,
    fun t => ?_, fun limit text n hn => agrees_of_parse hn⟩
  · exact names_subset_of_shapes fun hP ht => hP.keeps ht hr
  · exact names_subset_of_shapes fun hP ht => hP.foldConstants (hP.unmarked ht) hr
  · exact names_subset_of_shapes fun hP ht => hP.flattenPeaks ht hr
  · exact names_subset_of_shapes fun hP ht => hP.dropIdentities ht hr
  · exact names_subset_of_shapes fun hP ht => hP.collect ht

/-- Below the marks of `x * x = y` no other names are stored. -/
theorem simplify_brings_in_no_names_square :
    let square : Expr Float := binary .pow (var "x") (integer 2)
    let n := equation .eq (polynomial "x" square) (polynomial "y" (var "y"))
    (parse 5 "x * x = y").outcome = .ok n ∧ ∀ x, n.mentions x = true ↔ x ∈ n.names := by
  intro square n
  have hscans : Token.Scans "x * x = y".toList
      ([.name "x", .symbol .times, .name "x"] ++ .symbol (.relation .eq false) :: [.name "y"]) :=
    fun _ => ⟨_, rfl, rfl⟩
  have hname (y : String) : Derives .unary [.name y] (var y : Expr Float) :=
    .unsigned (.base (.name y))
  have hproduct := Derives.product (.factor (hname "x")) (hname "x")
  have hn : (parse 5 "x * x = y").outcome = .ok n := by
    rw [parse_eq_equation hscans (.term hproduct) (.term (.factor (hname "y")))]
    rfl
  obtain ⟨-, -, -, -, -, hagrees⟩ := simplify_brings_in_no_names (α := Float)
  exact ⟨hn, hagrees 5 _ n hn⟩

end EquationEngine.Expr
