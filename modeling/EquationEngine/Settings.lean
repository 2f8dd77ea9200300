import EquationEngine.Error
import EquationEngine.Text

/-!
The engine's settings and the environment from which they are read.

Bounds from the environment have to be positive. An empty entry counts as a missing one, except
for the level, whose name is checked only when a logger is made from it.
-/

namespace EquationEngine

/-- The settings of the engine. -/
structure Settings where
  /-- The sweeps permitted in every simplification loop. -/
  maxIterations : Int := 64
  /-- The steps permitted to isolate a variable. -/
  maxSolveDepth : Int := 256
  /-- The name of the level of reports. -/
  logLevel : String := "MINIMAL"
  logToFile : Bool := false
  logFile : Option String := none
  deriving DecidableEq, Repr

/-- Named texts, each name at most once. -/
abbrev Environment := List (String × String)

namespace Environment

def get? : Environment → String → Option String
  | [], _ => none
  | (key, text) :: rest, name => if key = name then some text else get? rest name

/-- The environment without an entry. -/
def unset : Environment → String → Environment
  | [], _ => []
  | (key, text) :: rest, name =>
    if key = name then unset rest name else (key, text) :: unset rest name

/-- The environment with an entry replaced or added. -/
def set (env : Environment) (name text : String) : Environment := (name, text) :: unset env name

@[simp] theorem get?_unset (env : Environment) (name other : String) :
    get? (unset env name) other = if name = other then none else get? env other := by
  induction env with
  | nil => simp [unset, get?]
  | cons entry rest ih =>
    by_cases hk : entry.1 = name
    · by_cases ho : name = other <;> simp_all [unset, get?]
    · by_cases ho : entry.1 = other
      · have : ¬name = other := fun h => hk (ho.trans h.symm)
        simp_all [unset, get?]
      · simp_all [unset, get?]

@[simp] theorem get?_set (env : Environment) (name text other : String) :
    get? (set env name text) other = if name = other then some text else get? env other := by
  by_cases h : name = other <;> simp [set, get?, h]

end Environment

namespace Settings

/-- What all names of the engine's entries in the environment begin with. -/
def scope : String := "SYMBOLIC_ALGEBRA_"

/-- An entry that is present and not empty. -/
def entry? (env : Environment) (name : String) : Option String :=
  (env.get? (scope ++ name)).filter (· != "")

/-- A positive bound from the environment. -/
def bound (env : Environment) (name : String) (default : Int) : Except Error Int :=
  match entry? env name with
  | none => .ok default
  | some text =>
    match Text.readInteger text with
    | .error .malformed => .error (.invalidInteger (((Text.quoted text).take 200).toString))
    | .error (.tooLong digits) => .error (.tooManyDigits Text.maxDigits digits)
    | .ok n => if 0 < n then .ok n else .error (.notPositive (scope ++ name))

/-- The settings that an environment describes. -/
def load (env : Environment) : Except Error Settings := do
  let usual : Settings := {}
  let file := entry? env "LOG_FILE"
  let iterations ← bound env "MAX_ITERATIONS" usual.maxIterations
  let depth ← bound env "MAX_SOLVE_DEPTH" usual.maxSolveDepth
  return {
    maxIterations := iterations
    maxSolveDepth := depth
    logLevel := Text.capitals ((env.get? (scope ++ "LOG_LEVEL")).getD usual.logLevel)
    logToFile := file.isSome
    logFile := file }

end Settings

end EquationEngine
