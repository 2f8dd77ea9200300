import EquationEngine.Proofs.Expr.RoundTrip

/-!
Trees that are read back exactly as they stand.

A tree spells itself if no sign in it is written that reading would cancel: no constant carries a
minus sign, and no negation stands below a negation or an absolute value. Its text is then read as
the very same tree, with nothing left over, as long as the bases of its powers bind tightly enough.
-/

namespace EquationEngine.Expr

open Arithmetic Token Grammar

variable {α : Type} [Arithmetic α]

/-- A node that is read back as it stands: a constant that is written as one number and read with
its value, a name that is no word for the remainder, an operator over one operand that reading does
not simplify, or an operator over two that is no power of a negation, an exponential or the variable
`e`. -/
def ReadBack : Expr α → Prop
  | const v => number? (text v).toList = some (text v).toList ∧
      Parser.constant (text v) = const v
  | var x => name? x.toList = some x.toList ∧ isMod x.toList = false
  | unary .neg e | unary .abs e => ∀ t, e ≠ unary .neg t
  | unary .log _ | unary .exp _ => True
  | binary .pow a _ => (∀ t, a ≠ unary .neg t) ∧ (∀ t, a ≠ unary .exp t) ∧ a ≠ var "e"
  | binary .. => True
  | nary .. | equation .. | polynomial .. => False

theorem isSigned_of_number? {v : α} (h : number? (text v).toList = some (text v).toList) :
    isSigned v = false := by
  obtain ⟨c, w, hw, hc⟩ := (isNumeral_of_number? h).exists_cons
  rw [isSigned, hw, beq_eq_false_iff_ne]
  rintro ⟨⟩
  rcases hc with hc | hc <;> cases hc

theorem ReadBack.legible {v : α} (h : ReadBack (const v)) : Legible v := by
  have hsigned := isSigned_of_number? h.1
  have hnumeral : numeral v = (text v).toList := by
    rw [numeral, hsigned, if_neg Bool.false_ne_true]
  refine ⟨hnumeral ▸ isNumeral_of_number? h.1, ?_⟩
  rw [hnumeral, String.ofList_toList, hsigned, if_neg Bool.false_ne_true]
  exact h.2

omit [Arithmetic α] in
theorem apply_eq_unary {op : UnaryOp} {e : Expr α}
    (h : op = .neg ∨ op = .abs → ∀ t, e ≠ unary .neg t) : apply op e = unary op e := by
  fun_cases apply op e with
  | case1 t => exact absurd rfl (h (.inl rfl) t)
  | case2 t => exact absurd rfl (h (.inr rfl) t)
  | case3 => rfl

theorem spelled_of_readBack {e : Expr α} (he : EveryNode ReadBack e) : spelled e = e := by
  induction e with
  | const v => rw [spelled, isSigned_of_number? he.root.1, if_neg Bool.false_ne_true]
  | var x => rfl
  | unary op e ih =>
      obtain ⟨hroot, he⟩ := everyNode_unary.1 he
      rw [spelled, ih he, apply_eq_unary]
      rintro (rfl | rfl) <;> exact hroot
  | binary op a b iha ihb =>
      obtain ⟨-, ha, hb⟩ := everyNode_binary.1 he
      rw [spelled, iha ha, ihb hb]
  | nary op es | equation r a b | polynomial x e => exact he.root.elim

theorem isBase_of_readBack {a b : Expr α} (h : ReadBack (binary .pow a b)) (ha : ReadBack a) :
    IsBase a := by
  obtain ⟨hneg, hexp, he⟩ := h
  cases a with
  | const v => exact isSigned_of_number? ha.1
  | var x => exact fun hx => he (congrArg var hx)
  | unary op t =>
      cases op with
      | neg => exact absurd rfl (hneg t)
      | abs => exact .inl rfl
      | log => exact .inr rfl
      | exp => exact absurd rfl (hexp t)
  | _ => trivial

theorem readable_of_readBack {e : Expr α} (he : EveryNode ReadBack e) : EveryNode Readable e := by
  induction e with
  | const v => exact everyNode_const.2 he.root.legible
  | var x => exact everyNode_var.2 he.root
  | unary op e ih => exact everyNode_unary.2 ⟨trivial, ih (everyNode_unary.1 he).2⟩
  | binary op a b iha ihb =>
      obtain ⟨hroot, ha, hb⟩ := everyNode_binary.1 he
      refine everyNode_binary.2 ⟨?_, iha ha, ihb hb⟩
      cases op with
      | pow => exact isBase_of_readBack hroot ha.root
      | _ => trivial
  | nary op es | equation r a b | polynomial x e => exact he.root.elim

/-- The text of a tree of such nodes is split into tokens, they are read as the tree, and no token
is left. -/
theorem additive_render {e : Expr α} (he : EveryNode ReadBack e) :
    ∃ (tokens : Tokens) (p : Parsed α tokens.list.length),
      Tokens.ofText e.render = .ok tokens ∧
      Parser.additive tokens.stop tokens.list = .ok p ∧ p.value = e ∧ p.rest = [] := by
  have hread := readable_of_readBack he
  have hscans := scans_render hread stops_nil Scans.nil
  rw [List.append_nil, List.append_nil] at hscans
  obtain ⟨ts, hts, hlexemes⟩ := hscans 0
  have hderives : Derives .additive (written e) e := by
    have hspelled := (derives_written hread).1
    rw [spelled_of_readBack he] at hspelled
    exact .term (.factor hspelled)
  obtain ⟨p, hp, hvalue, hrest⟩ := Parser.additive_of_derives e.render.length
    (List.append_nil ts).symm hderives hlexemes (Parser.loose_nil 3)
  exact ⟨⟨ts, e.render.length⟩, p, bind_eq_ok.2 ⟨ts, hts, rfl⟩, hp, hvalue, hrest⟩

/-- Bars within an exponential within bars, and a power of a logarithm, are read back. -/
theorem additive_render_nested :
    ∃ (tokens : Tokens) (p : Parsed Float tokens.list.length),
      Tokens.ofText "|(e^(-|x|) - (log(y_1) ^ -0.25))|" = .ok tokens ∧
      Parser.additive tokens.stop tokens.list = .ok p ∧
      p.value = unary .abs (binary .sub (unary .exp (unary .neg (unary .abs (var "x"))))
        (binary .pow (unary .log (var "y_1")) (unary .neg (const 0.25)))) ∧ p.rest = [] := by
  let e : Expr Float := unary .abs (binary .sub (unary .exp (unary .neg (unary .abs (var "x"))))
    (binary .pow (unary .log (var "y_1")) (unary .neg (const 0.25))))
  have hrender : e.render = "|(e^(-|x|) - (log(y_1) ^ -0.25))|" := by decide +kernel
  have hconst : ReadBack (const (0.25 : Float)) := ⟨by decide +kernel, rfl⟩
  have hx : ReadBack (var "x" : Expr Float) := ⟨rfl, rfl⟩
  have hy : ReadBack (var "y_1" : Expr Float) := ⟨rfl, rfl⟩
  have he : EveryNode ReadBack e := by
    simp only [e, everyNode_unary, everyNode_binary, everyNode_var, everyNode_const, hconst, hx, hy]
    simp [ReadBack]
  exact hrender ▸ additive_render he

end EquationEngine.Expr
