import EquationEngine.Error
import EquationEngine.Text

/-!
Records: messages with a weight, and the level of detail from which on they are shown.
-/

namespace EquationEngine

/-- How much is reported, from nothing to everything. -/
inductive Level where
  | silent
  | minimal
  | moderate
  | detailed
  | verbose
  deriving DecidableEq, Repr

namespace Level

def rank : Level → Nat
  | silent => 0
  | minimal => 1
  | moderate => 2
  | detailed => 3
  | verbose => 4

def name : Level → String
  | silent => "SILENT"
  | minimal => "MINIMAL"
  | moderate => "MODERATE"
  | detailed => "DETAILED"
  | verbose => "VERBOSE"

/-- The level of a name in any mix of cases. -/
def read (word : String) : Except Error Level :=
  match Text.capitals word with
  | "SILENT" => .ok silent
  | "MINIMAL" => .ok minimal
  | "MODERATE" => .ok moderate
  | "DETAILED" => .ok detailed
  | "VERBOSE" => .ok verbose
  | _ => .error (.unknownLevel word)

/-- Whether a logger at the first level reports what requires the second. -/
def shows (current required : Level) : Bool := required.rank ≤ current.rank

end Level

/-- The weight of a record. -/
inductive Severity where
  | debug
  | info
  | warning
  deriving DecidableEq, Repr

def Severity.name : Severity → String
  | debug => "DEBUG"
  | info => "INFO"
  | warning => "WARNING"

/-- A message with its weight and the level from which on it is reported. -/
structure Record where
  severity : Severity
  required : Level
  message : String
  deriving DecidableEq, Repr

namespace Record

def info (required : Level) (message : String) : Record := ⟨.info, required, message⟩

def warning (message : String) : Record := ⟨.warning, .minimal, message⟩

def step (message : String) : Record := ⟨.info, .detailed, "STEP: " ++ message⟩

def debug (message : String) : Record := ⟨.debug, .verbose, "DEBUG: " ++ message⟩

/-- A record as a line of a report. -/
def line (r : Record) : String := r.severity.name ++ " - " ++ r.message

end Record

end EquationEngine
