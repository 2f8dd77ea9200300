import EquationEngine.Expr.Printer
import EquationEngine.Proofs.Expr.Grammar
import EquationEngine.Proofs.Expr.Nodes
import EquationEngine.Proofs.Simplify.Normal
import EquationEngine.Proofs.Token.Lexer

/-!
What the text of a tree is read as.

The text of a tree is a sequence of words, `written`, and in the grammar these words are written
for a tree, `spelled`: the same tree, but for a constant with a minus sign, which is read as a
negation. A negation, a signed constant and an exponential do not bind as tightly as a power does,
so they must not be the base of one; nor must the variable `e`, which would make it an exponential.
-/

namespace EquationEngine

open Arithmetic Token Grammar

namespace Expr

variable {α : Type} [Arithmetic α]

/-- Whether a number is written with a minus sign. -/
def isSigned (v : α) : Bool := (text v).toList.head? == some '-'

/-- The characters of a number behind its sign. -/
def numeral (v : α) : List Char :=
  if isSigned v then (text v).toList.tail else (text v).toList

/-- A number is written with digits, an optional point and an optional minus sign, and without the
sign it is read as its absolute value. -/
structure Legible (v : α) : Prop where
  isNumeral : IsNumeral (numeral v)
  reads : Parser.constant (String.ofList (numeral v)) = const (if isSigned v then -v else v)

/-- The lexemes of the text of a tree. -/
def written : Expr α → List Lexeme
  | const v =>
    if isSigned v then [.symbol .minus, .number (String.ofList (numeral v))]
    else [.number (String.ofList (numeral v))]
  | var x => [.name x]
  | unary .neg e => .symbol .minus :: written e
  | unary .abs e => .symbol .bar :: (written e ++ [.symbol .bar])
  | unary .log e => .name "log" :: .symbol .openParen :: (written e ++ [.symbol .closeParen])
  | unary .exp e =>
    .name "e" :: .symbol .caret :: .symbol .openParen :: (written e ++ [.symbol .closeParen])
  | binary op a b =>
    .symbol .openParen :: ((written a ++ .symbol op.symbol :: written b) ++ [.symbol .closeParen])
  | polynomial _ e => written e
  | nary .. | equation .. => []

/-- The tree for which the lexemes of a tree are written. -/
def spelled : Expr α → Expr α
  | const v => if isSigned v then unary .neg (const (-v)) else const v
  | unary op e => apply op (spelled e)
  | binary op a b => binary op (spelled a) (spelled b)
  | polynomial _ e => spelled e
  | e => e

/-- Whether the text of a tree, with a caret behind it, is read as the base of a power. -/
def IsBase : Expr α → Prop
  | const v => isSigned v = false
  | var x => x ≠ "e"
  | unary op _ => op = .abs ∨ op = .log
  | _ => True

/-- Whether a node is a power only of what is read as its base. -/
def HasBase : Expr α → Prop
  | binary .pow a _ => IsBase a
  | _ => True

/-- A node whose text is read back. -/
def Readable : Expr α → Prop
  | const v => Legible v
  | var x => IsName x
  | binary .pow a _ => IsBase a
  | unary .. | binary .. => True
  | nary .. | equation .. | polynomial .. => False

/-! Words. -/

theorem toList_text (v : α) :
    (text v).toList = if isSigned v then '-' :: numeral v else numeral v := by
  unfold numeral
  split
  · rename_i h
    obtain ⟨cs, hcs⟩ := List.head?_eq_some_iff.1 (by simpa [isSigned] using h)
    rw [hcs, List.tail_cons]
  · rfl

theorem scans_word (op : BinaryOp) {cs : List Char} {ls : List Lexeme} (h : Scans (' ' :: cs) ls) :
    Scans (op.word.toList ++ ' ' :: cs) (.symbol op.symbol :: ls) := by
  cases op with
  | mod => exact Scans.word (c := 'm') (w := ['o', 'd']) (by decide) rfl h
  | _ => exact Scans.sign (by decide) rfl h

theorem scans_relation (r : Relation) {cs : List Char} {ls : List Lexeme}
    (h : Scans (' ' :: cs) ls) :
    Scans (r.symbol.toList ++ ' ' :: cs) (.symbol (.relation r false) :: ls) := by
  cases r <;> exact Scans.sign (by decide) rfl h

theorem scans_minus {cs : List Char} {ls : List Lexeme} (h : Scans cs ls) :
    Scans ('-' :: cs) (.symbol .minus :: ls) :=
  .sign (by decide) rfl h

/-- A tree is written in its own words, whatever stands behind it. -/
theorem scans_render {e : Expr α} (he : EveryNode Readable e) {cs : List Char} {ls : List Lexeme}
    (hcs : Stops cs) (h : Scans cs ls) : Scans (e.render.toList ++ cs) (written e ++ ls) := by
  induction e generalizing cs ls with
  | const v =>
      have hnumber := h.number he.root.isNumeral hcs
      rw [render, toList_text, written]
      split
      · exact scans_minus hnumber
      · exact hnumber
  | var x => exact h.name he.root hcs
  | unary op e ih =>
      have hbody := (everyNode_unary.1 he).2
      have hparen : Stops (')' :: cs) := stops_cons.2 (by decide)
      have hclosed : Scans (')' :: cs) (.symbol .closeParen :: ls) := h.sign (by decide) rfl
      have hopened : Scans ('(' :: _) (.symbol .openParen :: _) :=
        (ih hbody hparen hclosed).sign (by decide) rfl
      cases op with
      | neg => simpa [render, written] using scans_minus (ih hbody hcs h)
      | abs =>
          have hbar : Scans ('|' :: cs) (.symbol .bar :: ls) := h.sign (by decide) rfl
          have hinner := ih hbody (stops_cons.2 (by decide)) hbar
          simpa [render, written] using hinner.sign (by decide) rfl
      | log =>
          have hlog : IsName "log" := ⟨rfl, rfl⟩
          simpa [render, written] using hopened.name hlog (stops_cons.2 (by decide))
      | exp =>
          have he : IsName "e" := ⟨rfl, rfl⟩
          have hpower : Scans ('^' :: _) (.symbol .caret :: _) := hopened.sign (by decide) rfl
          simpa [render, written] using hpower.name he (stops_cons.2 (by decide))
  | binary op a b iha ihb =>
      obtain ⟨-, ha, hb⟩ := everyNode_binary.1 he
      have hclosed : Scans (')' :: cs) (.symbol .closeParen :: ls) := h.sign (by decide) rfl
      have hright := ihb hb (stops_cons.2 (by decide)) hclosed
      have hleft := iha ha (stops_cons.2 (by decide)) (scans_word op hright.blank).blank
      simpa [render, written] using hleft.sign (by decide) rfl
  | nary op es => exact he.root.elim
  | equation r a b => exact he.root.elim
  | polynomial x e => exact he.root.elim

/-! Derivations. -/

omit [Arithmetic α] in
/-- Operators other than negation stay, over some operand. -/
theorem exists_apply {op : UnaryOp} (hop : op ≠ .neg) (e : Expr α) :
    ∃ t, apply op e = unary op t := by
  fun_induction apply op e with
  | case1 e => exact absurd rfl hop
  | case2 e ih => exact ih hop
  | case3 op e => exact ⟨e, rfl⟩

theorem IsBase.spelled_ne {e : Expr α} (h : IsBase e) (he : Readable e) :
    spelled e ≠ var "e" := by
  cases e with
  | const v => simp [spelled, show isSigned v = false from h]
  | var x =>
      rintro ⟨⟩
      exact h rfl
  | unary op e =>
      have hop : op ≠ .neg := by rcases h with rfl | rfl <;> decide
      obtain ⟨t, ht⟩ := exists_apply hop (spelled e)
      simp [spelled, ht]
  | binary op a b => simp [spelled]
  | _ => exact he.elim

theorem derives_binary (op : BinaryOp) {ts us : List Lexeme} {a b : Expr α}
    (ha : Derives .unary ts a) (hb : Derives .unary us b)
    (hbase : op = .pow → Derives .primary ts a ∧ a ≠ var "e") :
    Derives .additive (ts ++ .symbol op.symbol :: us) (binary op a b) := by
  cases op with
  | add => exact .sum (.term (.factor ha)) (.factor hb)
  | sub => exact .difference (.term (.factor ha)) (.factor hb)
  | mul => exact .term (.product (.factor ha) hb)
  | div => exact .term (.quotient (.factor ha) hb)
  | mod => exact .term (.remainder (.factor ha) hb)
  | pow =>
      obtain ⟨hprimary, hne⟩ := hbase rfl
      exact .term (.factor (.unsigned (.exponent hprimary hne hb)))

/-- The words of a tree are written for what the tree spells, and as an operand if the tree may be
a base. -/
theorem derives_written {e : Expr α} (he : EveryNode Readable e) :
    Derives .unary (written e) (spelled e) ∧
      (IsBase e → Derives .primary (written e) (spelled e)) := by
  have of_primary {ts : List Lexeme} {t : Expr α} {p : Prop} (h : Derives .primary ts t) :
      Derives .unary ts t ∧ (p → Derives .primary ts t) :=
    ⟨.unsigned (.base h), fun _ => h⟩
  induction e with
  | const v =>
      have hnumber := Derives.number (α := α) (String.ofList (numeral v))
      rw [he.root.reads] at hnumber
      rw [written, spelled]
      split
      · rename_i hsigned
        rw [if_pos hsigned] at hnumber
        exact ⟨.negation (.unsigned (.base hnumber)), fun h => absurd (hsigned.symm.trans h) nofun⟩
      · rename_i hunsigned
        rw [if_neg hunsigned] at hnumber
        exact of_primary hnumber
  | var x => exact of_primary (.name x)
  | unary op e ih =>
      obtain ⟨hbody, -⟩ := ih (everyNode_unary.1 he).2
      have hinside : Derives .additive (written e) (spelled e) := .term (.factor hbody)
      cases op with
      | neg => exact ⟨.negation hbody, fun h => by rcases h with h | h <;> cases h⟩
      | abs => exact of_primary (.bars hinside)
      | log =>
          have hlog : Parser.function? "log" = some .log := by decide +kernel
          exact of_primary (.call hlog hinside)
      | exp =>
          have hpower := Derives.exponential (.name "e") (.unsigned (.base (.group hinside)))
          exact ⟨.unsigned hpower, fun h => by rcases h with h | h <;> cases h⟩
  | binary op a b iha ihb =>
      obtain ⟨hroot, ha, hb⟩ := everyNode_binary.1 he
      obtain ⟨hunary, hprimary⟩ := iha ha
      obtain ⟨hright, -⟩ := ihb hb
      refine of_primary (.group (derives_binary op hunary hright ?_))
      rintro rfl
      exact ⟨hprimary hroot, IsBase.spelled_ne hroot ha.root⟩
  | nary op es => exact he.root.elim
  | equation r a b => exact he.root.elim
  | polynomial x e => exact he.root.elim

end Expr

end EquationEngine
