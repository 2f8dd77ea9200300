/-!
Everything that can go wrong, as causes, and the one place where the causes are put into words.
-/

namespace EquationEngine

/-- The families of errors that callers tell apart. -/
inductive ErrorFamily where
  /-- The input text is not of the language. -/
  | wording
  | division
  | modulus
  /-- A function has no real value. -/
  | domain
  | unbound
  /-- The variable cannot be isolated. -/
  | unsupported
  /-- An operator has no inverse. -/
  | noInverse
  | overflow
  /-- An argument or setting has no meaning, or names a file that cannot be used. -/
  | badValue
  | wrongType
  | immutable
  deriving DecidableEq, Repr

/-- Whether the errors of a family are the engine's own, documented ones. -/
def ErrorFamily.isAlgebraic : ErrorFamily → Bool
  | wording | division | modulus | domain | unbound | unsupported | noInverse => true
  | overflow | badValue | wrongType | immutable => false

/-- The causes for which the engine gives no answer. -/
inductive Error where
  /-- A character that starts no token. -/
  | unexpectedCharacter (character : Char) (position : Nat)
  /-- A token that starts no operand; `none` is the end of the input. -/
  | unexpectedToken (found : Option String) (position : Nat)
  /-- A closing token is missing where another token stands. -/
  | expectedToken (expected : String) (found : Option String) (position : Nat)
  /-- A whole input was read and a token is left over. -/
  | trailingToken (found : Option String) (position : Nat)
  /-- A name in front of a parenthesis that is no function. -/
  | unknownFunction (name : String) (position : Nat)
  /-- The input ends after its relation. -/
  | missingRightSide (relation : String) (position : Nat)
  /-- An expression was read where an equation is wanted. -/
  | notAnEquation
  | divisionByZero
  | modulusByZero
  /-- A power without real value; the operands are given as written in full. -/
  | noRealPower (base exponent : String)
  /-- Some power of a list has no real value. -/
  | noRealPowers
  | logOfNonPositive
  /-- A result too large for the number type. -/
  | outOfRange
  | remainderOfInfinity
  /-- A variable without value. -/
  | unbound (name : String)
  /-- Only equalities can be solved. -/
  | unsolvableRelation (relation : String)
  /-- The variable is not isolated after the permitted number of steps. -/
  | depthExceeded (name : String) (limit : Int)
  /-- The variable stands below a node that has no inverse. -/
  | notIsolable (name kind : String)
  /-- The variable stands in both operands of the written expression. -/
  | bothOperands (name expression : String)
  | modulusNotInvertible
  /-- Solving was asked of something that is no equation. -/
  | needsEquation
  | unknownUnary (word : String)
  | unknownBinary (word : String)
  | unknownNary (word : String)
  | unknownRelation (word : String)
  | unknownLevel (word : String)
  | unknownTraversal (word : String)
  /-- A setting that is no integer, given in quotation marks. -/
  | invalidInteger (quoted : String)
  /-- A setting that has more digits than an integer is read with. -/
  | tooManyDigits (limit digits : Nat)
  /-- A setting that has to be positive. -/
  | notPositive (setting : String)
  /-- A log file that the system does not open, for a reason it gives. -/
  | unopened (reason : String)
  /-- A node was asked to change; `deleting` if it was asked to drop a part. -/
  | immutable (kind : String) (deleting : Bool)
  /-- A function has no counterpart among the real functions the engine converts. -/
  | notConvertible
  deriving DecidableEq, Repr

namespace Error

/-- A token as error messages name it. -/
def describe : Option String → String
  | some text => "'" ++ text ++ "'"
  | none => "end of input"

/-- The wording of each cause. -/
def message : Error → String
  | unexpectedCharacter c p =>
    "Unexpected character '" ++ c.toString ++ "' at position " ++ toString p
  | unexpectedToken found p =>
    "Unexpected token " ++ describe found ++ " at position " ++ toString p
  | expectedToken expected found p =>
    "Expected '" ++ expected ++ "' at position " ++ toString p ++ ", got " ++ describe found
  | trailingToken found p =>
    "Unexpected trailing token " ++ describe found ++ " at position " ++ toString p
  | unknownFunction name p => "Unknown function '" ++ name ++ "' at position " ++ toString p
  | missingRightSide relation _ => "Missing right-hand side after '" ++ relation ++ "'"
  | notAnEquation => "Expected an equation with a relation operator"
  | divisionByZero => "Division by zero"
  | modulusByZero => "Modulus by zero is undefined"
  | noRealPower base exponent => "No real value for " ++ base ++ " ^ " ++ exponent
  | noRealPowers => "No real value for power"
  | logOfNonPositive => "Logarithm of non-positive number"
  | outOfRange => "math range error"
  | remainderOfInfinity => "math domain error"
  | unbound name => "No value bound for variable '" ++ name ++ "'"
  | unsolvableRelation relation => "Only '=' equations can be solved, got '" ++ relation ++ "'"
  | depthExceeded name limit =>
    "Could not isolate '" ++ name ++ "' within " ++ toString limit ++ " steps"
  | notIsolable name kind => "Cannot isolate '" ++ name ++ "' through a " ++ kind
  | bothOperands name expression =>
    "Cannot isolate '" ++ name ++ "': it occurs in both operands of " ++ expression
  | modulusNotInvertible => "Solving through 'mod' is not supported"
  | needsEquation => "solve_for needs an equation"
  | unknownUnary word => "Unknown unary operator: " ++ word
  | unknownBinary word => "Unknown binary operator: " ++ word
  | unknownNary word => "Unknown n-ary operator: " ++ word
  | unknownRelation word => "Unknown relation: " ++ word
  | unknownLevel word => "Unknown log level: " ++ word
  | unknownTraversal word => "Invalid traversal_order: " ++ word
  | invalidInteger quoted => "invalid literal for int() with base 10: " ++ quoted
  | tooManyDigits limit digits =>
    "Exceeds the limit (" ++ toString limit ++ " digits) for integer string conversion: value has "
      ++ toString digits ++ " digits; use sys.set_int_max_str_digits() to increase the limit"
  | notPositive setting => setting ++ " must be a positive integer"
  | unopened reason => reason
  | immutable kind deleting =>
    kind ++ " is immutable" ++ if deleting then "" else "; build a new node instead"
  | notConvertible => "No real counterpart"

/-- Where in the input a syntax error was found. -/
def position? : Error → Option Nat
  | unexpectedCharacter _ p | unexpectedToken _ p | expectedToken _ _ p | trailingToken _ p
  | unknownFunction _ p | missingRightSide _ p => some p
  | _ => none

/-- The family of a cause. -/
def family : Error → ErrorFamily
  | unexpectedCharacter .. | unexpectedToken .. | expectedToken .. | trailingToken ..
  | unknownFunction .. | missingRightSide .. | notAnEquation => .wording
  | divisionByZero => .division
  | modulusByZero => .modulus
  | noRealPower .. | noRealPowers | logOfNonPositive => .domain
  | unbound _ => .unbound
  | unsolvableRelation _ | depthExceeded .. | notIsolable .. | bothOperands .. | notConvertible =>
    .unsupported
  | modulusNotInvertible => .noInverse
  | outOfRange => .overflow
  | needsEquation => .wrongType
  | immutable .. => .immutable
  | remainderOfInfinity | unknownUnary _ | unknownBinary _ | unknownNary _ | unknownRelation _
  | unknownLevel _ | unknownTraversal _ | invalidInteger _ | tooManyDigits .. | notPositive _
  | unopened _ => .badValue

end Error

end EquationEngine
