import EquationEngine.Polynomial
import EquationEngine.Token.Lexer

/-!
Reading expressions and equations.

From the loosest to the tightest binding: one relation, sums and differences, products, quotients
and remainders, the sign, and powers, which group to the right and take a signed exponent. An
operand is a number, a name, a function call, or an expression in parentheses or bars. A power of
the name `e` is the exponential.

Every reader returns the tokens it leaves, which are fewer than it was given.
-/

namespace EquationEngine

variable {α : Type} [Arithmetic α]

/-- An expression that was read, and fewer than `n` tokens behind it. -/
structure Parsed (α : Type) (n : Nat) where
  value : Expr α
  rest : List Token
  shorter : rest.length < n

namespace Parser

/-- The text of the token in front; `none` at the end. -/
def front? (ts : List Token) : Option String := ts.head?.map (·.lexeme.text)

/-- The position of the token in front, or of the end. -/
def here (stop : Nat) : List Token → Nat
  | [] => stop
  | t :: _ => t.position

/-- The operator of a sum or difference. -/
def sumOp? (t : Token) : Option BinaryOp :=
  match t.lexeme with
  | .symbol .plus => some .add
  | .symbol .minus => some .sub
  | _ => none

/-- The operator of a product, quotient or remainder. -/
def productOp? (t : Token) : Option BinaryOp :=
  match t.lexeme with
  | .symbol .times => some .mul
  | .symbol .slash => some .div
  | .symbol .percent => some .mod
  | _ => none

/-- The function of a name in any mix of cases. -/
def function? (name : String) : Option UnaryOp :=
  match name.toLower with
  | "log" => some .log
  | "ln" => some .log
  | "exp" => some .exp
  | "abs" => some .abs
  | _ => none

/-- The constant that the text of a number token denotes. -/
def constant (text : String) : Expr α :=
  let places := ((text.toList.dropWhile (· != '.')).filter Text.isDigit).length
  .number (Arithmetic.ofDecimal (Text.natOfDigits text.toList) places)

/-- A power, which is the exponential if its base is the name `e`. -/
def power (base exponent : Expr α) : Expr α :=
  match base with
  | .var "e" => .apply .exp exponent
  | _ => .binary .pow base exponent

/-- The tokens behind the given sign, which has to be in front. -/
def expect (stop : Nat) (s : Symbol) (ts : List Token) :
    Except Error { rest : List Token // rest.length < ts.length } :=
  match ts with
  | [] => .error (.expectedToken s.text none stop)
  | t :: rest =>
    if t.lexeme = .symbol s then .ok ⟨rest, by simp⟩
    else .error (.expectedToken s.text (some t.lexeme.text) t.position)

mutual

/-- A chain of sums and differences. -/
def additive (stop : Nat) (ts : List Token) : Except Error (Parsed α ts.length) := do
  let first ← multiplicative stop ts
  let all ← additiveFrom stop first.value first.rest
  return ⟨all.value, all.rest, by have := first.shorter; have := all.shorter; omega⟩
termination_by 6 * ts.length + 5
decreasing_by
  · omega
  · have := first.shorter; omega

/-- The rest of a chain of sums and differences behind its left part. -/
def additiveFrom (stop : Nat) (left : Expr α) (ts : List Token) :
    Except Error (Parsed α (ts.length + 1)) :=
  match ts with
  | [] => .ok ⟨left, [], by simp⟩
  | t :: rest =>
    match sumOp? t with
    | none => .ok ⟨left, t :: rest, by simp⟩
    | some op => do
      let next ← multiplicative stop rest
      let all ← additiveFrom stop (.binary op left next.value) next.rest
      return ⟨all.value, all.rest, by
        have := next.shorter; have := all.shorter; simp only [List.length_cons]; omega⟩
termination_by 6 * ts.length + 5
decreasing_by
  · simp only [List.length_cons]; omega
  · have := next.shorter; simp only [List.length_cons]; omega

/-- A chain of products, quotients and remainders. -/
def multiplicative (stop : Nat) (ts : List Token) : Except Error (Parsed α ts.length) := do
  let first ← signed stop ts
  let all ← multiplicativeFrom stop first.value first.rest
  return ⟨all.value, all.rest, by have := first.shorter; have := all.shorter; omega⟩
termination_by 6 * ts.length + 4
decreasing_by
  · omega
  · have := first.shorter; omega

/-- The rest of a chain of products, quotients and remainders behind its left part. -/
def multiplicativeFrom (stop : Nat) (left : Expr α) (ts : List Token) :
    Except Error (Parsed α (ts.length + 1)) :=
  match ts with
  | [] => .ok ⟨left, [], by simp⟩
  | t :: rest =>
    match productOp? t with
    | none => .ok ⟨left, t :: rest, by simp⟩
    | some op => do
      let next ← signed stop rest
      let all ← multiplicativeFrom stop (.binary op left next.value) next.rest
      return ⟨all.value, all.rest, by
        have := next.shorter; have := all.shorter; simp only [List.length_cons]; omega⟩
termination_by 6 * ts.length + 4
decreasing_by
  · simp only [List.length_cons]; omega
  · have := next.shorter; simp only [List.length_cons]; omega

/-- A power behind any number of minus signs. -/
def signed (stop : Nat) (ts : List Token) : Except Error (Parsed α ts.length) :=
  match ts with
  | ⟨.symbol .minus, _⟩ :: rest => do
    let e ← signed stop rest
    return ⟨.negate e.value, e.rest, by have := e.shorter; simp only [List.length_cons]; omega⟩
  | ts => exponential stop ts
termination_by 6 * ts.length + 3
decreasing_by
  · simp only [List.length_cons]; omega
  · omega

/-- An operand with an optional exponent. -/
def exponential (stop : Nat) (ts : List Token) : Except Error (Parsed α ts.length) := do
  let base ← operand stop ts
  match h : base.rest with
  | ⟨.symbol .caret, _⟩ :: rest =>
    let exponent ← signed stop rest
    return ⟨power base.value exponent.value, exponent.rest, by
      have := base.shorter; have := exponent.shorter; simp only [h, List.length_cons] at *; omega⟩
  | _ => return base
termination_by 6 * ts.length + 2
decreasing_by
  · omega
  · have := base.shorter; simp only [h, List.length_cons] at *; omega

/-- A number, a name, a function call, or an expression in parentheses or bars. -/
def operand (stop : Nat) (ts : List Token) : Except Error (Parsed α ts.length) :=
  match ts with
  | ⟨.number text, _⟩ :: rest => .ok ⟨constant text, rest, by simp⟩
  | ⟨.name name, p⟩ :: ⟨.symbol .openParen, _⟩ :: rest =>
    match function? name with
    | none => .error (.unknownFunction name p)
    | some op => do
      let e ← additive stop rest
      let close ← expect stop .closeParen e.rest
      return ⟨.apply op e.value, close.1, by
        have := e.shorter; have := close.2; simp only [List.length_cons]; omega⟩
  | ⟨.name name, _⟩ :: rest => .ok ⟨.var name, rest, by simp⟩
  | ⟨.symbol .openParen, _⟩ :: rest => do
    let e ← additive stop rest
    let close ← expect stop .closeParen e.rest
    return ⟨e.value, close.1, by
      have := e.shorter; have := close.2; simp only [List.length_cons]; omega⟩
  | ⟨.symbol .bar, _⟩ :: rest => do
    let e ← additive stop rest
    let close ← expect stop .bar e.rest
    return ⟨.apply .abs e.value, close.1, by
      have := e.shorter; have := close.2; simp only [List.length_cons]; omega⟩
  | ts => .error (.unexpectedToken (front? ts) (here stop ts))
termination_by 6 * ts.length + 1
decreasing_by
  all_goals simp only [List.length_cons]; omega

end

/-- An expression that has to be the whole input. -/
def finish (stop : Nat) (e : Expr α) (rest : List Token) : Except Error (Expr α) :=
  if rest.isEmpty then .ok e else .error (.trailingToken (front? rest) (here stop rest))

/-- A whole input: an expression, or two expressions with a relation between them. Each of them
goes through `tag` as soon as it is read. -/
def sentence (tag : Expr α → Run (Expr α)) (tokens : Tokens) : Run (Expr α) := do
  let left ← Run.lift (additive tokens.stop tokens.list)
  let a ← tag left.value
  match left.rest with
  | ⟨.symbol (.relation r spelledOut), _⟩ :: rest =>
    if rest.isEmpty then
      Run.fail (.missingRightSide (Symbol.relation r spelledOut).text tokens.stop)
    else
      let right ← Run.lift (additive tokens.stop rest)
      let b ← tag right.value
      Run.lift (finish tokens.stop (.equation r a b) right.rest)
  | rest => Run.lift (finish tokens.stop a rest)

end Parser

/-- The expression or equation that a text writes, with its polynomials marked. -/
def Expr.parse (limit : Int) (text : String) : Run (Expr α) := do
  let tokens ← Run.lift (Tokens.ofText text)
  Parser.sentence (Expr.tag limit) tokens

/-- The equation that a text writes. -/
def Expr.parseEquation (limit : Int) (text : String) : Run (Expr α) := do
  match ← Expr.parse limit text with
  | .equation r a b => return .equation r a b
  | _ => Run.fail .notAnEquation

/-- The expression at the front of a text, without marks; what follows it is not read. -/
def Expr.parseFront (text : String) : Except Error (Expr α) := do
  let tokens ← Tokens.ofText text
  let e ← Parser.additive tokens.stop tokens.list
  return e.value

end EquationEngine
