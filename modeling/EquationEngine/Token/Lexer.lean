import EquationEngine.Text
import EquationEngine.Token

/-!
Splitting a text into tokens.

At every character that is no white space the longest number, name or sign is taken. A number is a
run of digits with an optional fraction, or a fraction alone. The word `mod`, in any mix of cases,
is the remainder sign.
-/

namespace EquationEngine.Token

open Text

/-- Whether a character can start a name. -/
def startsName (c : Char) : Bool := c.isAlpha || c == '_'

/-- Whether a character can continue a name. -/
def continuesName (c : Char) : Bool := startsName c || c.isDigit

/-- The characters of the longest number at the front, if one is there. -/
def number? (cs : List Char) : Option (List Char) :=
  match cs.takeWhile isDigit, cs.dropWhile isDigit with
  | [], '.' :: rest =>
    match rest.takeWhile isDigit with
    | [] => none
    | fraction => some ('.' :: fraction)
  | [], _ => none
  | whole, '.' :: rest => some (whole ++ '.' :: rest.takeWhile isDigit)
  | whole, _ => some whole

/-- The characters of the longest name at the front, if one is there. -/
def name? : List Char → Option (List Char)
  | c :: cs => if startsName c then some (c :: cs.takeWhile continuesName) else none
  | [] => none

/-- The longest sign at the front with its number of characters, if one is there. -/
def symbol? : List Char → Option (Symbol × Nat)
  | '!' :: '=' :: _ => some (.relation .ne true, 2)
  | '>' :: '=' :: _ => some (.relation .ge true, 2)
  | '<' :: '=' :: _ => some (.relation .le true, 2)
  | '≠' :: _ => some (.relation .ne false, 1)
  | '≥' :: _ => some (.relation .ge false, 1)
  | '≤' :: _ => some (.relation .le false, 1)
  | '=' :: _ => some (.relation .eq false, 1)
  | '<' :: _ => some (.relation .lt false, 1)
  | '>' :: _ => some (.relation .gt false, 1)
  | '+' :: _ => some (.plus, 1)
  | '-' :: _ => some (.minus, 1)
  | '*' :: _ => some (.times, 1)
  | '/' :: _ => some (.slash, 1)
  | '%' :: _ => some (.percent, 1)
  | '^' :: _ => some (.caret, 1)
  | '(' :: _ => some (.openParen, 1)
  | ')' :: _ => some (.closeParen, 1)
  | '|' :: _ => some (.bar, 1)
  | _ => none

/-- Whether a name is the word for the remainder. -/
def isMod (cs : List Char) : Bool := cs.map Char.toLower == ['m', 'o', 'd']

/-- The lexeme at the front of a text and the number of characters it takes. -/
def munch (cs : List Char) : Option (Lexeme × Nat) :=
  match number? cs, name? cs, symbol? cs with
  | some n, _, _ => some (.number (String.ofList n), n.length)
  | none, some n, _ =>
    some (if isMod n then .symbol .percent else .name (String.ofList n), n.length)
  | none, none, some (s, k) => some (.symbol s, k)
  | none, none, none => none

/-- The tokens of a text from a position on, after `skip` characters that belong to an earlier
token. -/
def scan : (skip position : Nat) → List Char → Except Error (List Token)
  | _, _, [] => .ok []
  | skip + 1, p, _ :: cs => scan skip (p + 1) cs
  | 0, p, c :: cs =>
    if isBlank c then scan 0 (p + 1) cs
    else
      match munch (c :: cs) with
      | none => .error (.unexpectedCharacter c p)
      | some (lexeme, k) => do
        let rest ← scan (k - 1) (p + 1) cs
        return ⟨lexeme, p⟩ :: rest

end EquationEngine.Token

namespace EquationEngine

/-- The tokens of a text. -/
def Tokens.ofText (text : String) : Except Error Tokens := do
  let list ← Token.scan 0 0 text.toList
  return ⟨list, text.length⟩

end EquationEngine
