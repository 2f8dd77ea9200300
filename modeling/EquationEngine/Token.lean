import EquationEngine.Relation

/-!
Tokens: the words of which an input text is made.
-/

namespace EquationEngine

/-- The signs of the language. -/
inductive Symbol where
  | plus
  | minus
  | times
  | slash
  | percent
  | caret
  | openParen
  | closeParen
  | bar
  /-- A relation; `spelledOut` if it is written with two characters where one exists. -/
  | relation (relation : Relation) (spelledOut : Bool)
  deriving DecidableEq, Repr

/-- What a token says; numbers and names are kept as written. -/
inductive Lexeme where
  | number (text : String)
  | name (text : String)
  | symbol (symbol : Symbol)
  deriving DecidableEq, Repr

/-- A lexeme and the position of its first character. -/
structure Token where
  lexeme : Lexeme
  position : Nat
  deriving DecidableEq, Repr

namespace Symbol

def text : Symbol → String
  | plus => "+"
  | minus => "-"
  | times => "*"
  | slash => "/"
  | percent => "%"
  | caret => "^"
  | openParen => "("
  | closeParen => ")"
  | bar => "|"
  | relation .ne true => "!="
  | relation .ge true => ">="
  | relation .le true => "<="
  | relation r _ => r.symbol

end Symbol

namespace Lexeme

def text : Lexeme → String
  | number t => t
  | name t => t
  | symbol s => s.text

/-- The class of a lexeme. -/
def label : Lexeme → String
  | number _ => "number"
  | name _ => "name"
  | symbol _ => "op"

end Lexeme

/-- The tokens of a text, and its length, where its end is reported. -/
structure Tokens where
  list : List Token
  stop : Nat
  deriving DecidableEq, Repr

end EquationEngine
