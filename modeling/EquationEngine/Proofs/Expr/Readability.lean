import EquationEngine.Proofs.Double.Distinct
import EquationEngine.Proofs.Simplify.Spelled

/-!
Trees that are written alike have the same value.

The text of a tree does not tell a negative constant from a negation, nor a polynomial from its
body. Written out with negations instead of negative constants and without marks, a tree is
determined by its text: the first character says what kind of tree begins there, and names and
numbers end where their characters do. Both ways to write a tree out leave its value as it is.
-/

namespace EquationEngine.Expr

open Arithmetic Token

/-! Trees written out. -/

/-- A node of a tree whose constants are stored finite numbers and whose names are identifiers, and
that is neither a flat operation nor an equation. -/
def Storable : Expr Float → Prop
  | const v => v.isFinite = true ∧ ∃ u, v = settle u
  | var x => name? x.toList = some x.toList
  | unary .. | binary .. | polynomial .. => True
  | nary .. | equation .. => False

/-- A node whose text begins with what it is: constants have no sign, and there are no marks. -/
def Literal : Expr Float → Prop
  | const v => v.isFinite = true ∧ Double.Unsigned (Double.parts v)
  | var x => name? x.toList = some x.toList
  | unary .. | binary .. => True
  | nary .. | equation .. | polynomial .. => False

/-- The tree with negations for the signs of constants, and without marks. -/
def literal : Expr Float → Expr Float
  | const v => if isSigned v then unary .neg (const (-v)) else const v
  | unary op e => unary op (literal e)
  | binary op a b => binary op (literal a) (literal b)
  | polynomial _ e => literal e
  | e => e

theorem eval_literal (env : Assignment Float) (e : Expr Float) :
    eval env (literal e) = eval env e := by
  induction e with
  | const v => rw [literal, eval_sign, eval]
  | unary op e ih => rw [literal, eval, ih, eval]
  | binary op a b iha ihb => rw [literal, eval, iha, ihb, eval]
  | polynomial x e ih => rw [literal, ih, eval]
  | var x | nary op es | equation r a b => rfl

/-- Constants are written out as they are read: a sign becomes a negation. -/
theorem literal_const {v : Float} (h : Storable (const v)) :
    EveryNode Literal (literal (const v)) ∧
      (literal (const v)).render.toList = (const v).render.toList := by
  obtain ⟨hfinite, hset⟩ := h
  rw [literal]
  obtain hunsigned | ⟨hunsigned, htext⟩ := Double.unsigned_or_negative hfinite hset
  · rw [Double.isSigned_eq_false hunsigned, if_neg Bool.false_ne_true]
    exact ⟨everyNode_const.2 ⟨hfinite, hunsigned⟩, rfl⟩
  · have hsigned : isSigned v = true := by
      show ((Double.text v).toList.head? == some '-') = true
      rw [htext]
      rfl
    rw [if_pos hsigned]
    refine ⟨everyNode_unary.2 ⟨trivial, everyNode_const.2 ⟨?_, hunsigned⟩⟩, ?_⟩
    · rw [Double.isFinite_neg]
      exact hfinite
    · rw [render, render, render, String.toList_append]
      exact htext.symm

theorem literal_of_storable {e : Expr Float} (he : EveryNode Storable e) :
    EveryNode Literal (literal e) ∧ (literal e).render.toList = e.render.toList := by
  induction e with
  | const v => exact literal_const he.root
  | var x => exact ⟨everyNode_var.2 he.root, rfl⟩
  | unary op e ih =>
      obtain ⟨hnodes, htext⟩ := ih (everyNode_unary.1 he).2
      refine ⟨everyNode_unary.2 ⟨trivial, hnodes⟩, ?_⟩
      cases op <;> simp [literal, render, htext]
  | binary op a b iha ihb =>
      obtain ⟨-, ha, hb⟩ := everyNode_binary.1 he
      obtain ⟨hnodes, htext⟩ := iha ha
      obtain ⟨hnodes', htext'⟩ := ihb hb
      refine ⟨everyNode_binary.2 ⟨trivial, hnodes, hnodes'⟩, ?_⟩
      simp [literal, render, htext, htext']
  | polynomial x e ih => exact ih (everyNode_polynomial.1 he).2
  | nary op es | equation r a b => exact he.root.elim

/-! Reading a text in one way only. -/

/-- What follows a tree begins with a blank, a closing parenthesis or a bar, or is empty. -/
def Ends (cs : List Char) : Prop := ∀ c ∈ cs.head?, c = ' ' ∨ c = ')' ∨ c = '|'

theorem ends_nil : Ends [] := by
  simp [Ends]

theorem ends_cons {c : Char} {cs : List Char} : Ends (c :: cs) ↔ c = ' ' ∨ c = ')' ∨ c = '|' := by
  simp [Ends]

theorem Ends.stops {cs : List Char} (h : Ends cs) {p : Char → Bool}
    (hblank : p ' ' = false) (hparen : p ')' = false) (hbar : p '|' = false) :
    ∀ c ∈ cs.head?, p c = false := by
  intro c hc
  rcases h c hc with rfl | rfl | rfl <;> assumption

/-- What a text begins with. -/
inductive Opening where
  | digit
  | letter
  | minus
  | bar
  | paren
  deriving DecidableEq

/-- What a character opens. -/
def opening (c : Char) : Opening :=
  if c = '-' then .minus else if c = '|' then .bar else if c = '(' then .paren
  else if c.isDigit then .digit else .letter

/-- What the text of a tree begins with. -/
def opens : Expr Float → Opening
  | const _ => .digit
  | unary .neg _ => .minus
  | unary .abs _ => .bar
  | binary .. => .paren
  | _ => .letter

section Text

variable {α : Type} [Arithmetic α]

theorem toList_render_neg (e : Expr α) :
    (unary .neg e).render.toList = '-' :: e.render.toList := by
  simp [render]

theorem toList_render_abs (e : Expr α) :
    (unary .abs e).render.toList = '|' :: (e.render.toList ++ ['|']) := by
  simp [render]

theorem toList_render_log (e : Expr α) :
    (unary .log e).render.toList = "log".toList ++ '(' :: (e.render.toList ++ [')']) := by
  simp [render]

theorem toList_render_exp (e : Expr α) :
    (unary .exp e).render.toList = "e".toList ++ '^' :: '(' :: (e.render.toList ++ [')']) := by
  simp [render]

theorem toList_render_binary (op : BinaryOp) (a b : Expr α) :
    (binary op a b).render.toList =
      '(' :: (a.render.toList ++ ' ' :: (op.word.toList ++ ' ' :: (b.render.toList ++ [')']))) := by
  simp [render]

end Text

theorem isNumber_text {v : Float} (hv : Literal (const v)) :
    (∃ d w, (text v).toList = d :: w ∧ d.isDigit = true) ∧
      ∀ c ∈ (text v).toList, Double.isNumeric c = true := by
  obtain ⟨q, hq, -⟩ := Double.exists_rounds hv.1 hv.2
  exact ⟨hq.exists_cons, hq.isNumeric⟩

theorem continuesName_of_name? {x : String} (hx : name? x.toList = some x.toList) :
    ∀ c ∈ x.toList, continuesName c = true := by
  obtain ⟨c, w, hw, hc, hrest⟩ := exists_cons_of_name? hx
  rw [hw, List.forall_mem_cons, continuesName, hc, Bool.true_or]
  exact ⟨rfl, hrest⟩

theorem opening_of_startsName {c : Char} (h : startsName c = true) : opening c = .letter := by
  obtain ⟨hlow, hhigh⟩ := toNat_of_startsName h
  have hdigit : ¬c.isDigit = true := by
    intro hdigit
    have := not_isDigit_of_startsName h
    rw [Text.isDigit_of_ascii hdigit] at this
    cases this
  have hne (d : Char) (hd : d.toNat < 65 ∨ 123 ≤ d.toNat) : c ≠ d := by
    rintro rfl
    omega
  rw [opening, if_neg (hne _ (by decide)), if_neg (hne _ (by decide)), if_neg (hne _ (by decide)),
    if_neg hdigit]

theorem opening_of_isDigit {c : Char} (h : c.isDigit = true) : opening c = .digit := by
  unfold opening
  split_ifs with h1 h2 h3
  · subst h1; cases h
  · subst h2; cases h
  · subst h3; cases h
  · rfl

/-- The first character of a text says what its tree opens with. -/
theorem exists_cons_render {e : Expr Float} (he : Literal e) :
    ∃ c cs, e.render.toList = c :: cs ∧ opening c = opens e := by
  cases e with
  | const v =>
      obtain ⟨⟨d, w, hw, hd⟩, -⟩ := isNumber_text he
      exact ⟨d, w, hw, opening_of_isDigit hd⟩
  | var x =>
      obtain ⟨c, w, hw, hc, -⟩ := exists_cons_of_name? he
      exact ⟨c, w, hw, opening_of_startsName hc⟩
  | unary op e =>
      cases op with
      | neg => exact ⟨_, _, toList_render_neg e, rfl⟩
      | abs => exact ⟨_, _, toList_render_abs e, rfl⟩
      | log => exact ⟨_, _, toList_render_log e, rfl⟩
      | exp => exact ⟨_, _, toList_render_exp e, rfl⟩
  | binary op a b => exact ⟨_, _, toList_render_binary op a b, rfl⟩
  | _ => exact he.elim

theorem opens_eq {s t : Expr Float} (hs : Literal s) (ht : Literal t) {us vs : List Char}
    (h : s.render.toList ++ us = t.render.toList ++ vs) : opens s = opens t := by
  obtain ⟨c, cs, hcs, hc⟩ := exists_cons_render hs
  obtain ⟨d, ds, hds, hd⟩ := exists_cons_render ht
  rw [hcs, hds] at h
  rw [← hc, ← hd, (List.cons.inj h).1]

/-- The word that a tree without a sign or bracket in front begins with. -/
def firstWord : Expr Float → List Char
  | var x => x.toList
  | unary .log _ => "log".toList
  | unary .exp _ => "e".toList
  | _ => []

/-- What follows the first word. -/
def behindWord : Expr Float → List Char
  | unary .log e => '(' :: (e.render.toList ++ [')'])
  | unary .exp e => '^' :: '(' :: (e.render.toList ++ [')'])
  | _ => []

theorem words_of_letter {e : Expr Float} (he : Literal e) (hopens : opens e = .letter)
    {cs : List Char} (hcs : Ends cs) : e.render.toList ++ cs = firstWord e ++ (behindWord e ++ cs) ∧
      (∀ c ∈ firstWord e, continuesName c = true) ∧
      ∀ c ∈ (behindWord e ++ cs).head?, continuesName c = false := by
  cases e with
  | var x =>
      exact ⟨rfl, continuesName_of_name? he, hcs.stops (by decide) (by decide) (by decide)⟩
  | unary op e =>
      cases op with
      | log =>
          rw [toList_render_log, List.append_assoc]
          refine ⟨rfl, continuesName_of_name? (x := "log") rfl, ?_⟩
          simp only [behindWord, List.cons_append, List.head?_cons, Option.mem_some_iff,
            forall_eq']
          decide
      | exp =>
          rw [toList_render_exp, List.append_assoc]
          refine ⟨rfl, continuesName_of_name? (x := "e") rfl, ?_⟩
          simp only [behindWord, List.cons_append, List.head?_cons, Option.mem_some_iff,
            forall_eq']
          decide
      | _ => cases hopens
  | nary op es | equation r a b | polynomial x e => exact he.elim
  | _ => cases hopens

/-- Names and words of functions end where their characters do. -/
theorem words_inj {s t : Expr Float} (hs : Literal s) (ht : Literal t) (hos : opens s = .letter)
    (hot : opens t = .letter) {us vs : List Char} (hus : Ends us) (hvs : Ends vs)
    (h : s.render.toList ++ us = t.render.toList ++ vs) :
    firstWord s = firstWord t ∧ behindWord s ++ us = behindWord t ++ vs := by
  obtain ⟨hsplit, hword, hstops⟩ := words_of_letter hs hos hus
  obtain ⟨hsplit', hword', hstops'⟩ := words_of_letter ht hot hvs
  rw [hsplit, hsplit'] at h
  exact append_inj_of_stops hword hstops hword' hstops' h

theorem word_injective {op op' : BinaryOp} (h : op.word.toList = op'.word.toList) : op = op' := by
  have hread := congrArg BinaryOp.read (String.toList_injective h)
  rw [BinaryOp.read_word, BinaryOp.read_word] at hread
  exact Except.ok.inj hread

/-- What a text begins with says which kind of tree is written there. -/
theorem cases_of_opens {e : Expr Float} (he : Literal e) :
    match opens e with
    | .digit => ∃ v, e = const v
    | .minus => ∃ t, e = unary .neg t
    | .bar => ∃ t, e = unary .abs t
    | .paren => ∃ op a b, e = binary op a b
    | .letter => (∃ x, e = var x) ∨ (∃ t, e = unary .log t) ∨ ∃ t, e = unary .exp t := by
  cases e with
  | const v => exact ⟨v, rfl⟩
  | var x => exact .inl ⟨x, rfl⟩
  | unary op e =>
      cases op with
      | neg | abs => exact ⟨e, rfl⟩
      | log => exact .inr (.inl ⟨e, rfl⟩)
      | exp => exact .inr (.inr ⟨e, rfl⟩)
  | binary op a b => exact ⟨op, a, b, rfl⟩
  | nary op es | equation r a b | polynomial x e => exact he.elim

theorem Ends.ne_open {cs ds : List Char} (h : Ends cs) : cs ≠ '(' :: ds := by
  rintro rfl
  simp [Ends] at h

theorem Ends.ne_caret {cs ds : List Char} (h : Ends cs) : cs ≠ '^' :: ds := by
  rintro rfl
  simp [Ends] at h

/-- Two trees of one kind, and what equal texts that begin with them leave to be compared below
their roots. -/
inductive SameRoot (us vs : List Char) : Expr Float → Expr Float → Prop
  | const {v w : Float} (h : (text v).toList ++ us = (text w).toList ++ vs) :
      SameRoot us vs (const v) (const w)
  | var (x : String) (h : us = vs) : SameRoot us vs (var x) (var x)
  | neg {a b : Expr Float} (h : a.render.toList ++ us = b.render.toList ++ vs) :
      SameRoot us vs (unary .neg a) (unary .neg b)
  | abs {a b : Expr Float} (h : a.render.toList ++ '|' :: us = b.render.toList ++ '|' :: vs) :
      SameRoot us vs (unary .abs a) (unary .abs b)
  | function (op : UnaryOp) {a b : Expr Float}
      (h : a.render.toList ++ ')' :: us = b.render.toList ++ ')' :: vs) :
      SameRoot us vs (unary op a) (unary op b)
  | binary {op op' : BinaryOp} {a b a' b' : Expr Float}
      (h : a.render.toList ++ ' ' :: (op.word.toList ++ ' ' :: (b.render.toList ++ ')' :: us)) =
        a'.render.toList ++ ' ' :: (op'.word.toList ++ ' ' :: (b'.render.toList ++ ')' :: vs))) :
      SameRoot us vs (binary op a b) (binary op' a' b')

/-- The word in front tells a name, a logarithm and an exponential from each other. -/
theorem sameRoot_of_letter {s t : Expr Float} (hs : Literal s) (ht : Literal t)
    (hos : opens s = .letter) (hot : opens t = .letter) {us vs : List Char} (hus : Ends us)
    (hvs : Ends vs) (h : s.render.toList ++ us = t.render.toList ++ vs) : SameRoot us vs s t := by
  obtain ⟨hword, hbehind⟩ := words_inj hs ht hos hot hus hvs h
  have hkind := cases_of_opens hs
  have hkind' := cases_of_opens ht
  rw [hos] at hkind
  rw [hot] at hkind'
  obtain ⟨x, rfl⟩ | ⟨a, rfl⟩ | ⟨a, rfl⟩ := hkind <;>
    obtain ⟨y, rfl⟩ | ⟨b, rfl⟩ | ⟨b, rfl⟩ := hkind'
  · obtain rfl := String.toList_injective hword
    exact .var x hbehind
  · exact absurd hbehind hus.ne_open
  · exact absurd hbehind hus.ne_caret
  · exact absurd hbehind.symm hvs.ne_open
  · exact .function .log (by simpa [behindWord] using hbehind)
  · exact absurd hword (by simp [firstWord])
  · exact absurd hbehind.symm hvs.ne_caret
  · exact absurd hword (by simp [firstWord])
  · exact .function .exp (by simpa [behindWord] using hbehind)

theorem sameRoot_of_texts {s t : Expr Float} (hs : Literal s) (ht : Literal t) {us vs : List Char}
    (hus : Ends us) (hvs : Ends vs) (h : s.render.toList ++ us = t.render.toList ++ vs) :
    SameRoot us vs s t := by
  have hopens := opens_eq hs ht h
  have hkind := cases_of_opens hs
  have hkind' := cases_of_opens ht
  rw [← hopens] at hkind'
  cases hos : opens s <;> rw [hos] at hkind hkind'
  case digit =>
    obtain ⟨v, rfl⟩ := hkind
    obtain ⟨w, rfl⟩ := hkind'
    exact .const h
  case letter => exact sameRoot_of_letter hs ht hos (hopens ▸ hos) hus hvs h
  case minus =>
    obtain ⟨a, rfl⟩ := hkind
    obtain ⟨b, rfl⟩ := hkind'
    exact .neg (by simpa [toList_render_neg] using h)
  case bar =>
    obtain ⟨a, rfl⟩ := hkind
    obtain ⟨b, rfl⟩ := hkind'
    exact .abs (by simpa [toList_render_abs] using h)
  case paren =>
    obtain ⟨op, a, b, rfl⟩ := hkind
    obtain ⟨op', a', b', rfl⟩ := hkind'
    exact .binary (by simpa [toList_render_binary] using h)

/-- The word of an operator ends at the blank behind it. -/
theorem word_inj {op op' : BinaryOp} {us vs : List Char}
    (h : op.word.toList ++ ' ' :: us = op'.word.toList ++ ' ' :: vs) : op = op' ∧ us = vs := by
  have hword (op : BinaryOp) : ∀ c ∈ op.word.toList, (c != ' ') = true := by
    cases op <;> simp [BinaryOp.word]
  have hstop (cs : List Char) : ∀ c ∈ (' ' :: cs).head?, (c != ' ') = false := by simp
  obtain ⟨hop, hright⟩ := append_inj_of_stops (hword op) (hstop _) (hword op') (hstop _) h
  exact ⟨word_injective hop, (List.cons.inj hright).2⟩

/-- A tree written out is determined by a text that begins with it, and so is what follows. -/
theorem render_inj {s t : Expr Float} (hs : EveryNode Literal s) (ht : EveryNode Literal t)
    {us vs : List Char} (hus : Ends us) (hvs : Ends vs)
    (h : s.render.toList ++ us = t.render.toList ++ vs) : s = t ∧ us = vs := by
  have hblank (cs : List Char) : Ends (' ' :: cs) := ends_cons.2 (.inl rfl)
  have hparen (cs : List Char) : Ends (')' :: cs) := ends_cons.2 (.inr (.inl rfl))
  have hbar (cs : List Char) : Ends ('|' :: cs) := ends_cons.2 (.inr (.inr rfl))
  -- the root is told by how the text begins; each operand is written in front of a character at
  -- which it has to end, so the induction takes operand after operand off the text
  induction s generalizing t us vs with
  | const v =>
      cases sameRoot_of_texts hs.root ht.root hus hvs h with
      | @const _ w hbelow =>
          obtain ⟨-, hv⟩ := isNumber_text hs.root
          obtain ⟨-, hw⟩ := isNumber_text ht.root
          obtain ⟨htext, rfl⟩ := append_inj_of_stops hv
            (hus.stops (by decide) (by decide) (by decide)) hw
            (hvs.stops (by decide) (by decide) (by decide)) hbelow
          obtain rfl := Double.eq_of_text_eq hs.root.1 hs.root.2 ht.root.1 ht.root.2
            (String.toList_injective htext)
          exact ⟨rfl, rfl⟩
  | var x =>
      cases sameRoot_of_texts hs.root ht.root hus hvs h with
      | var _ hbelow => exact ⟨rfl, hbelow⟩
  | unary op s ih =>
      have hs' := (everyNode_unary.1 hs).2
      cases sameRoot_of_texts hs.root ht.root hus hvs h with
      | neg hbelow =>
          obtain ⟨rfl, rfl⟩ := ih hs' (everyNode_unary.1 ht).2 hus hvs hbelow
          exact ⟨rfl, rfl⟩
      | abs hbelow =>
          obtain ⟨rfl, htail⟩ := ih hs' (everyNode_unary.1 ht).2 (hbar _) (hbar _) hbelow
          exact ⟨rfl, (List.cons.inj htail).2⟩
      | function _ hbelow =>
          obtain ⟨rfl, htail⟩ := ih hs' (everyNode_unary.1 ht).2 (hparen _) (hparen _) hbelow
          exact ⟨rfl, (List.cons.inj htail).2⟩
  | binary op a b iha ihb =>
      obtain ⟨-, ha, hb⟩ := everyNode_binary.1 hs
      cases sameRoot_of_texts hs.root ht.root hus hvs h with
      | binary hbelow =>
          obtain ⟨-, ha', hb'⟩ := everyNode_binary.1 ht
          obtain ⟨rfl, hmiddle⟩ := iha ha ha' (hblank _) (hblank _) hbelow
          obtain ⟨rfl, hright⟩ := word_inj (List.cons.inj hmiddle).2
          obtain ⟨rfl, htail⟩ := ihb hb hb' (hparen _) (hparen _) hright
          exact ⟨rfl, (List.cons.inj htail).2⟩
  | nary op es | equation r a b | polynomial x e => exact hs.root.elim

/-- Trees that are written alike have the same value, or end in the same error. -/
theorem eval_eq_of_render_eq {a b : Expr Float} (ha : EveryNode Storable a)
    (hb : EveryNode Storable b) (h : a.render = b.render) (env : Assignment Float) :
    eval env a = eval env b := by
  obtain ⟨hnodes, htext⟩ := literal_of_storable ha
  obtain ⟨hnodes', htext'⟩ := literal_of_storable hb
  have hsame : literal a = literal b := by
    refine (render_inj hnodes hnodes' ends_nil ends_nil ?_).1
    rw [htext, htext', h]
  rw [← eval_literal env a, hsame, eval_literal]

end EquationEngine.Expr
