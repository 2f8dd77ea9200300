import EquationEngine.Expr.Parser

/-!
The grammar of expressions and equations, as rules on lists of lexemes.

The rules say which lists of lexemes are written for a tree, without saying how such a list is
read. Sums and products group to the left because their left part is of the same category as the
whole and their right part of the next tighter one; powers group to the right because an exponent
may again be a power.
-/

namespace EquationEngine

/-- The sign by which an operator is written. -/
def BinaryOp.symbol : BinaryOp → Symbol
  | add => .plus
  | sub => .minus
  | mul => .times
  | div => .slash
  | pow => .caret
  | mod => .percent

namespace Grammar

/-- The categories of expressions, from the loosest binding to the tightest. -/
inductive Category where
  | additive
  | multiplicative
  | unary
  | power
  | primary
  deriving DecidableEq, Repr

variable {α : Type} [Arithmetic α]

/-- A list of lexemes is written for a tree in a category. -/
inductive Derives : Category → List Lexeme → Expr α → Prop
  | term {ts : List Lexeme} {e : Expr α} :
      Derives .multiplicative ts e → Derives .additive ts e
  | sum {ts us : List Lexeme} {a b : Expr α} :
      Derives .additive ts a → Derives .multiplicative us b →
      Derives .additive (ts ++ .symbol .plus :: us) (.binary .add a b)
  | difference {ts us : List Lexeme} {a b : Expr α} :
      Derives .additive ts a → Derives .multiplicative us b →
      Derives .additive (ts ++ .symbol .minus :: us) (.binary .sub a b)
  | factor {ts : List Lexeme} {e : Expr α} :
      Derives .unary ts e → Derives .multiplicative ts e
  | product {ts us : List Lexeme} {a b : Expr α} :
      Derives .multiplicative ts a → Derives .unary us b →
      Derives .multiplicative (ts ++ .symbol .times :: us) (.binary .mul a b)
  | quotient {ts us : List Lexeme} {a b : Expr α} :
      Derives .multiplicative ts a → Derives .unary us b →
      Derives .multiplicative (ts ++ .symbol .slash :: us) (.binary .div a b)
  | remainder {ts us : List Lexeme} {a b : Expr α} :
      Derives .multiplicative ts a → Derives .unary us b →
      Derives .multiplicative (ts ++ .symbol .percent :: us) (.binary .mod a b)
  | negation {ts : List Lexeme} {e : Expr α} :
      Derives .unary ts e → Derives .unary (.symbol .minus :: ts) (.negate e)
  | unsigned {ts : List Lexeme} {e : Expr α} :
      Derives .power ts e → Derives .unary ts e
  | base {ts : List Lexeme} {e : Expr α} :
      Derives .primary ts e → Derives .power ts e
  | exponent {ts us : List Lexeme} {a b : Expr α} :
      Derives .primary ts a → a ≠ .var "e" → Derives .unary us b →
      Derives .power (ts ++ .symbol .caret :: us) (.binary .pow a b)
  /-- A base that is the variable `e` makes an exponential. -/
  | exponential {ts us : List Lexeme} {b : Expr α} :
      Derives .primary ts (.var "e" : Expr α) → Derives .unary us b →
      Derives .power (ts ++ .symbol .caret :: us) (.apply .exp b)
  | number (text : String) : Derives .primary [.number text] (Parser.constant text)
  | name (x : String) : Derives .primary [.name x] (.var x)
  | call {f : String} {op : UnaryOp} {ts : List Lexeme} {e : Expr α} :
      Parser.function? f = some op → Derives .additive ts e →
      Derives .primary (.name f :: .symbol .openParen :: (ts ++ [.symbol .closeParen]))
        (.apply op e)
  | group {ts : List Lexeme} {e : Expr α} :
      Derives .additive ts e →
      Derives .primary (.symbol .openParen :: (ts ++ [.symbol .closeParen])) e
  | bars {ts : List Lexeme} {e : Expr α} :
      Derives .additive ts e →
      Derives .primary (.symbol .bar :: (ts ++ [.symbol .bar])) (.apply .abs e)

/-- A list of lexemes is a whole input for a tree: one expression, or two with a relation between
them. -/
inductive Sentence : List Lexeme → Expr α → Prop
  | expression {ts : List Lexeme} {e : Expr α} : Derives .additive ts e → Sentence ts e
  | equation {ts us : List Lexeme} {a b : Expr α} (r : Relation) (spelledOut : Bool) :
      Derives .additive ts a → Derives .additive us b →
      Sentence (ts ++ .symbol (.relation r spelledOut) :: us) (.equation r a b)

theorem Derives.ne_nil {c : Category} {ts : List Lexeme} {e : Expr α} (h : Derives c ts e) :
    ts ≠ [] := by
  induction h with
  | term _ ih | factor _ ih | unsigned _ ih | base _ ih => exact ih
  | _ => simp

theorem Derives.head_primary {ts : List Lexeme} {e : Expr α} (h : Derives .primary ts e) :
    ts.head? ≠ some (.symbol .minus) := by
  cases h <;> simp

/-- Only a sign puts a minus in front, so a list without one is not read as signed. -/
theorem Derives.head_power {ts : List Lexeme} {e : Expr α} (h : Derives .power ts e) :
    ts.head? ≠ some (.symbol .minus) := by
  cases h with
  | base h => exact h.head_primary
  | exponent h _ _ | exponential h _ =>
      obtain ⟨t, ts, rfl⟩ := List.exists_cons_of_ne_nil h.ne_nil
      exact h.head_primary

/-- What holds of numbers and names and is kept by the operators holds of every tree that is
written; the names and the signs of the operators are among the lexemes. -/
theorem Derives.rule {P : Expr α → Prop} {c : Category} {ls : List Lexeme} {e : Expr α}
    (h : Derives c ls e) (hnumber : ∀ t, P (Parser.constant t))
    (hname : ∀ x, .name x ∈ ls → P (.var x)) (happly : ∀ op e, P e → P (.apply op e))
    (hbinary : ∀ op a b, .symbol op.symbol ∈ ls → P a → P b → P (.binary op a b)) : P e := by
  have hpart {c : Category} {ts : List Lexeme} {e : Expr α} (h : Derives c ts e) :
      ts ⊆ ls → P e := by
    induction h with
    | term _ ih | factor _ ih | unsigned _ ih | base _ ih => exact ih
    | sum _ _ iha ihb | difference _ _ iha ihb | product _ _ iha ihb | quotient _ _ iha ihb
    | remainder _ _ iha ihb | exponent _ _ _ iha ihb =>
        intro hsub
        obtain ⟨hts, hus⟩ := List.append_subset.1 hsub
        obtain ⟨hop, hus⟩ := List.cons_subset.1 hus
        exact hbinary _ _ _ hop (iha hts) (ihb hus)
    | negation _ ih =>
        intro hsub
        exact happly .neg _ (ih (List.cons_subset.1 hsub).2)
    | exponential _ _ _ ihb =>
        intro hsub
        exact happly .exp _ (ihb (List.cons_subset.1 (List.append_subset.1 hsub).2).2)
    | number t => exact fun _ => hnumber t
    | name x => exact fun hsub => hname x (List.cons_subset.1 hsub).1
    | call _ _ ih =>
        intro hsub
        have hrest := (List.cons_subset.1 (List.cons_subset.1 hsub).2).2
        exact happly _ _ (ih (List.append_subset.1 hrest).1)
    | group _ ih => exact fun hsub => ih (List.append_subset.1 (List.cons_subset.1 hsub).2).1
    | bars _ ih =>
        exact fun hsub => happly _ _ (ih (List.append_subset.1 (List.cons_subset.1 hsub).2).1)
  exact hpart h (List.Subset.refl ls)

end Grammar

end EquationEngine
