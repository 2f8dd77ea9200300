import EquationEngine.Proofs.Double.Parts
import EquationEngine.Proofs.Simplify.Tally

/-!
The form in which a sum is collected.

The terms of a sum fall into groups, and a group whose coefficients do not cancel is written as one
item: its body, or a multiple of it. The items stand in the order of the groups and are joined from
left to right, and only the first of them can be negated.
-/

namespace EquationEngine

open Arithmetic

/-- A number under a sign. -/
def Sign.times : Sign → Float → Float
  | plus, x => x
  | minus, x => -x

namespace Expr

section Terms

variable {α : Type} [Arithmetic α]

/-- The terms of a sum, each with like terms collected inside it and with its sign. -/
def terms (e : Expr α) : List (Expr α) := (gather .plus e).map fun t => signed t.1 (collect t.2)

theorem collect_eq_combine {op : BinaryOp} (hop : op = .add ∨ op = .sub) (a b : Expr α) :
    collect (binary op a b) = combine (terms (binary op a b)) := by
  obtain rfl | rfl := hop <;>
    simp [collect, collectTerms_eq_map_gather, terms, gather, Sign.flip]

/-- Negations are peeled off a body. -/
theorem splitFrom_ne_neg (c : α) (e t : Expr α) : (splitFrom c e).2 ≠ unary .neg t := by
  fun_induction splitFrom c e with
  | case8 c e hneg => exact fun h => hneg t h
  | case1 | case2 | case3 | case6 => assumption
  | _ =>
      intro h
      cases h

/-- The sums of a tally. -/
def Tally.amounts (t : Tally α) : List α :=
  t.linear.map (·.2) ++ t.powers.map (·.2.1) ++ t.constant :: t.others.map (·.2)

theorem constantSum_eq_total {groups : List (Group α)}
    (h : (groups.map Group.body).Pairwise Precedes) {g : Group α} (hg : g ∈ groups)
    (hslot : slot g.body = .constant) : constantSum groups = g.total := by
  obtain ⟨l, r, rfl⟩ := List.append_of_mem hg
  rw [List.map_append, List.pairwise_append] at h
  have hl : ∀ g' ∈ l, Precedes g'.body g.first.2 := fun g' hg' =>
    h.2.2 _ (List.mem_map_of_mem hg') _ (List.mem_cons_self ..)
  rw [constantSum, List.filterMap_append, filterMap_constant_of_precedes hl hslot,
    List.filterMap_cons_some (constant?_eq_some.2 ⟨hslot, rfl⟩)]
  rfl

/-- The sum of each group is in the tally. -/
theorem total_mem_amounts {groups : List (Group α)}
    (h : (groups.map Group.body).Pairwise Precedes) {g : Group α} (hg : g ∈ groups) :
    g.total ∈ (sums groups).amounts := by
  simp only [Tally.amounts, List.mem_append, List.mem_cons, List.mem_map]
  cases hs : slot g.body with
  | name x =>
      exact .inl (.inl ⟨(x, g.total),
        List.mem_filterMap.2 ⟨g, hg, linear?_eq_some.2 ⟨hs, rfl⟩⟩, rfl⟩)
  | power x text =>
      exact .inl (.inr ⟨((x, text), g.total, exponent g.body),
        List.mem_filterMap.2 ⟨g, hg, power?_eq_some.2 ⟨hs, rfl⟩⟩, rfl⟩)
  | constant => exact .inr (.inl (constantSum_eq_total h hg hs).symm)
  | other =>
      exact .inr (.inr ⟨(g.body, g.total),
        List.mem_filterMap.2 ⟨g, hg, other?_eq_some.2 ⟨hs, rfl⟩⟩, rfl⟩)

end Terms

/-! Items. -/

/-- What a group is written as: a positive number, or its body, alone or with a positive number in
front. The sign and the number are the sum of the group. -/
inductive Written (g : Group Float) : Sign × Expr Float → Prop
  | constant (s : Sign) (m : Float) (hg : slot g.body = .constant) (hm : 0 < m)
      (hsum : g.total = s.times m) : Written g (s, const m)
  | body (s : Sign) (hg : slot g.body ≠ .constant) (hsum : g.total = s.times 1) :
      Written g (s, g.body)
  | multiple (s : Sign) (m : Float) (hg : slot g.body ≠ .constant) (hm : 0 < m) (hne : m ≠ 1)
      (hsum : g.total = s.times m) : Written g (s, binary .mul (const m) g.body)

theorem exists_written {g : Group Float} (hnan : g.total.isNaN = false)
    (hzero : isZero g.total = false) : ∃ i, g.item = [i] ∧ Written g i := by
  obtain ⟨hpos, hsign⟩ := Double.sign_and_size hnan hzero
  obtain ⟨s, hs, hsum⟩ : ∃ s, (if lt g.total zero then Sign.minus else .plus) = s ∧
      g.total = s.times g.total.abs := by
    refine ⟨_, rfl, ?_⟩
    obtain ⟨hneg, hsum⟩ | ⟨hneg, hsum⟩ := hsign
    · have hlt : lt g.total zero = true := decide_eq_true hneg
      rw [if_pos hlt]
      exact hsum
    · have hlt : ¬lt g.total zero = true := mt of_decide_eq_true hneg
      rw [if_neg hlt]
      exact hsum
  rw [Group.item, if_neg (by simp [hzero]), hs]
  refine ⟨_, rfl, ?_⟩
  have hnumber : number g.total.abs = const g.total.abs := congrArg const (Double.settle_abs _)
  change Written g (s, if slot g.body = .constant then number g.total.abs
    else if isOne g.total.abs then g.body else binary .mul (number g.total.abs) g.body)
  rw [hnumber]
  split_ifs with hconst hone
  · exact .constant s _ hconst hpos hsum
  · rw [Double.isOne_abs_iff] at hone
    exact .body s hconst (hone ▸ hsum)
  · rw [Double.isOne_abs_iff] at hone
    exact .multiple s _ hconst hpos hone hsum

/-- The items of a list of groups are those of the groups whose sums are not zero. -/
theorem forall₂_written {groups : List (Group Float)}
    (h : ∀ g ∈ groups, g.total.isNaN = false) :
    List.Forall₂ Written (groups.filter fun g => !isZero g.total)
      (groups.flatMap Group.item) := by
  induction groups with
  | nil => exact .nil
  | cons g groups ih =>
      rw [List.forall_mem_cons] at h
      rw [List.flatMap_cons]
      cases hzero : isZero g.total with
      | true =>
          have hitem : g.item = [] := if_pos hzero
          rw [List.filter_cons_of_neg (by simp [hzero]), hitem]
          exact ih h.2
      | false =>
          obtain ⟨i, hitem, hwritten⟩ := exists_written h.1 hzero
          rw [List.filter_cons_of_pos (by simp [hzero]), hitem]
          exact .cons hwritten (ih h.2)

/-! Chains. -/

/-- Items joined from left to right by sums and differences. -/
inductive Chain : List (Sign × Expr Float) → Expr Float → Prop
  | empty : Chain [] (const 0)
  | first (e : Expr Float) : Chain [(.plus, e)] e
  | negative (v : Float) : Chain [(.minus, const v)] (const (-v))
  | negated {e : Expr Float} (he : ∀ v, e ≠ const v) : Chain [(.minus, e)] (unary .neg e)
  | add {items : List (Sign × Expr Float)} {a : Expr Float} (e : Expr Float) (h : Chain items a)
      (hne : items ≠ []) : Chain (items ++ [(.plus, e)]) (binary .add a e)
  | sub {items : List (Sign × Expr Float)} {a : Expr Float} (e : Expr Float) (h : Chain items a)
      (hne : items ≠ []) : Chain (items ++ [(.minus, e)]) (binary .sub a e)

theorem Chain.join {items : List (Sign × Expr Float)} {a : Expr Float} (h : Chain items a)
    (hne : items ≠ []) (rest : List (Sign × Expr Float)) : Chain (items ++ rest) (join a rest) := by
  induction rest generalizing items a with
  | nil => rwa [List.append_nil]
  | cons i rest ih =>
      obtain ⟨s, e⟩ := i
      rw [List.append_cons]
      refine ih ?_ (by simp)
      cases s with
      | plus => exact .add e h hne
      | minus => exact .sub e h hne

theorem leading_minus {e : Expr Float} (hconst : ∀ v, e ≠ const v) (hneg : ∀ t, e ≠ unary .neg t) :
    leading .minus e = unary .neg e := by
  cases e with
  | const v => exact absurd rfl (hconst v)
  | unary op t =>
      cases op with
      | neg => exact absurd rfl (hneg t)
      | _ => rfl
  | _ => rfl

/-- The first item of a chain stands alone, negated if its sum is negative. -/
theorem chain_leading {g : Group Float} {s : Sign} {e : Expr Float} (h : Written g (s, e))
    (hbody : ∀ t, g.body ≠ unary .neg t) : Chain [(s, e)] (leading s e) := by
  cases s with
  | plus => exact .first e
  | minus =>
      cases h with
      | constant _ m hg hm hsum =>
          rw [leading, number, Double.settle_neg_of_pos hm]
          exact .negative m
      | body _ hg hsum =>
          have hconst : ∀ v, g.body ≠ const v := fun v hv =>
            hg (slot_eq_constant.2 ⟨v, by rw [hv]; rfl⟩)
          rw [leading_minus hconst hbody]
          exact .negated hconst
      | multiple _ m hg hm hne hsum =>
          refine .negated fun v hv => ?_
          cases hv

/-- The items of written groups are joined to a chain, if no body is a negation. -/
theorem chain_combine {es : List (Expr Float)} {groups : List (Group Float)}
    {items : List (Sign × Expr Float)} (hitems : (Tally.ofTerms es).items = items)
    (h : List.Forall₂ Written groups items) (hbody : ∀ g ∈ groups, ∀ t, g.body ≠ unary .neg t) :
    Chain items (combine es) := by
  rw [combine, hitems]
  cases h with
  | nil => exact .empty
  | @cons g i groups items hi _ =>
      obtain ⟨s, e⟩ := i
      exact (chain_leading hi (hbody g (List.mem_cons_self ..))).join (by simp) items

/-- A sum is collected into a chain of items. Its terms, with their signs and collected inside, are
put into groups, each of which is written as one item, unless its sum is zero; the items stand in
the order of the groups, which is that of the names, of the powers, the constant, and then the order
of first appearance. -/
theorem collect_canonical {op : BinaryOp} (hop : op = .add ∨ op = .sub) (a b : Expr Float)
    (hnan : ∀ c ∈ (Tally.ofTerms (terms (binary op a b))).amounts, c.isNaN = false) :
    ∃ groups items, Grouping ((terms (binary op a b)).map split) groups ∧
      List.Forall₂ Written (groups.filter fun g => !isZero g.total) items ∧
      Chain items (collect (binary op a b)) := by
  rw [collect_eq_combine hop]
  generalize terms (binary op a b) = es at hnan ⊢
  have hgroups := grouping_grouped (es.map split)
  rw [ofTerms_eq_sums] at hnan
  have hwritten := forall₂_written fun g hg => hnan _ (total_mem_amounts hgroups.ordered hg)
  have hbody : ∀ g ∈ (grouped (es.map split)).filter fun g => !isZero g.total,
      ∀ t, g.body ≠ unary .neg t := by
    intro g hg t
    obtain ⟨e, -, he⟩ := List.mem_map.1 (hgroups.first_mem (List.mem_of_mem_filter hg))
    rw [Group.body, ← he]
    exact splitFrom_ne_neg _ e t
  have hitems : (Tally.ofTerms es).items = (grouped (es.map split)).flatMap Group.item := by
    rw [ofTerms_eq_sums, items_sums rfl hgroups.ordered]
  exact ⟨_, _, hgroups, hwritten, chain_combine hitems hwritten hbody⟩

/-- Constants that cancel, a variable in front of all other bodies, and these in the order in which
they first appear, although the first of them appears again behind the second. -/
theorem collect_canonical_repeated :
    ∃ groups items,
      Grouping [(1, unary .abs (var "x")), (1, const 2), (1, unary .log (var "x")), (-1, const 2),
        (1, unary .abs (var "x")), (-3, var "y")] groups ∧
      List.Forall₂ Written (groups.filter fun g => !isZero g.total) items ∧
      Chain items (binary .add (binary .add (unary .neg (binary .mul (const 3) (var "y")))
        (binary .mul (const (2 : Float)) (unary .abs (var "x")))) (unary .log (var "x"))) :=
  @collect_canonical .sub (.inr rfl)
    (binary .add (binary .add (unary .abs (var "x")) (const 2)) (unary .log (var "x")))
    (binary .sub (const 2)
      (binary .sub (unary .abs (var "x")) (binary .mul (const 3) (var "y"))))
    (by decide +kernel)

end Expr

end EquationEngine
