import EquationEngine.Expr.Batch
import EquationEngine.Expr.Blueprint
import EquationEngine.Reporting
import EquationEngine.Solve

/-!
A workbench: named expressions and solvers, with the settings and the logger under which they are
used.

Settings are read from the environment when they are first needed and kept from then on; a failure
to read them is reported to whoever needed them and leaves nothing behind. The logger is made from
the settings when the first record is to be delivered, and a failure to make it is the failure of
whoever reports.
-/

namespace EquationEngine

/-- A named expression, with its text once that has been asked for. -/
structure Held (α : Type) where
  root : Expr α
  written : Option String

/-- The state of a workbench. -/
structure Workbench (α : Type) where
  environment : Environment
  /-- The settings in use, once they are known. -/
  settings : Option Settings
  reporting : Reporting
  expressions : List (String × Held α)
  solvers : List (String × Solver)

/-- What an action leaves behind: the state, the lines on the console, and a result. -/
structure Reply (α β : Type) where
  bench : Workbench α
  console : List String
  result : Except Error β

/-- Something done at a workbench. -/
def Action (α β : Type) := Workbench α → Reply α β

namespace Action

variable {α β γ : Type}

/-- An action that changes and shows nothing. -/
def lift (result : Except Error β) : Action α β := fun w => ⟨w, [], result⟩

def andThen (a : Action α β) (next : β → Action α γ) : Action α γ := fun w =>
  let first := a w
  match first.result with
  | .error e => ⟨first.bench, first.console, .error e⟩
  | .ok b =>
    let second := next b first.bench
    ⟨second.bench, first.console ++ second.console, second.result⟩

instance : Monad (Action α) where
  pure b := lift (.ok b)
  bind := andThen

/-- The state as it is. -/
def get : Action α (Workbench α) := fun w => ⟨w, [], .ok w⟩

/-- A change of the state. -/
def modify (f : Workbench α → Workbench α) : Action α Unit := fun w => ⟨f w, [], .ok ()⟩

/-- Lines on the console. -/
def display (lines : List String) : Action α Unit := fun w => ⟨w, lines, .ok ()⟩

end Action

namespace Workbench

variable {α β : Type}

/-- A workbench on which nothing has been done. -/
def empty : Workbench α := ⟨[], none, .start, [], []⟩

/-! Settings. -/

/-- An entry of the environment set, or removed. -/
def setEntry (name : String) (text : Option String) : Action α Unit :=
  Action.modify fun w =>
    let name := Settings.scope ++ name
    { w with environment := match text with
      | some t => w.environment.set name t
      | none => w.environment.unset name }

/-- The settings that the environment describes now. -/
def loadSettings : Action α Settings := do
  let w ← Action.get
  Action.lift (Settings.load w.environment)

/-- Settings to be used from now on. -/
def setSettings (s : Settings) : Action α Unit :=
  Action.modify fun w => { w with settings := some s }

/-- The settings in use; they are read from the environment if they are not known yet. -/
def getSettings : Action α Settings := do
  let w ← Action.get
  match w.settings with
  | some s => return s
  | none =>
    let s ← loadSettings
    setSettings s
    return s

/-- The settings in use changed. -/
def changeSettings (f : Settings → Settings) : Action α Settings := do
  let s ← getSettings
  setSettings (f s)
  return f s

/-- The settings in use forgotten. -/
def forgetSettings : Action α Unit := Action.modify fun w => { w with settings := none }

/-! Reporting. -/

/-- A change of the state of reporting. -/
def setReporting (r : Reporting) : Action α Unit :=
  Action.modify fun w => { w with reporting := r }

/-- A new logger, unless the system refuses its file. -/
def makeLogger (level : Level) (file : Option String) : Action α Unit := do
  let w ← Action.get
  let (r, made) := w.reporting.tryInstall level file
  setReporting r
  Action.lift made

/-- The level of the current logger; one is made from the settings if there is none. -/
def loggerLevel : Action α Level := do
  let w ← Action.get
  match w.reporting.level with
  | some level => return level
  | none =>
    let s ← getSettings
    let level ← Action.lift (Level.read s.logLevel)
    makeLogger level (w.reporting.logFile? s)
    return level

def setLevel (level : Level) : Action α Unit := do
  let w ← Action.get
  setReporting (w.reporting.setLevel level)

/-- A new logger; the answer is the number of its outlets. -/
def configure (level : Level) (file : Option String) : Action α Nat := do
  makeLogger level file
  let w ← Action.get
  return w.reporting.outlets.length

def forgetLogger : Action α Unit := do
  let w ← Action.get
  setReporting w.reporting.forget

/-- Records delivered by the current logger; without a record none is made. -/
def report (records : List Record) : Action α Unit :=
  if records.isEmpty then return ()
  else do
    let level ← loggerLevel
    let w ← Action.get
    let (r, shown) := w.reporting.deliverAll level records
    setReporting r
    Action.display shown

/-- The lines of a file. -/
def fileLines (path : String) : Action α (List String) := do
  let w ← Action.get
  return (w.reporting.files.lookup path).getD []

/-! Computations. -/

/-- A computation under the configured iteration limit, with its events reported. -/
def perform (compute : (limit : Int) → Run β) : Action α β := do
  let w ← Action.get
  let usual : Settings := {}
  let known := w.settings.map Except.ok |>.getD (Settings.load w.environment)
  let run := compute (match known with
    | .ok s => s.maxIterations
    | .error _ => usual.maxIterations)
  if run.consulted then discard getSettings
  report (run.events.map Event.record)
  Action.lift run.outcome

/-! Expressions. -/

/-- A name given to an expression. -/
def put (name : String) (held : Held α) : Action α Unit :=
  Action.modify fun w =>
    { w with expressions := (name, held) :: w.expressions.filter (·.1 != name) }

variable [Arithmetic α]

/-- The text of an expression at the workbench. -/
def caption (e : Expr α) : String := "Expression(" ++ e.render ++ ")"

/-- A new expression under a name; the answer is its text. -/
def keep (name : String) (e : Expr α) : Action α String := do
  put name ⟨e, some e.render⟩
  return caption e

/-- The text of a named expression, with what was known of it before. -/
def write (name : String) (held : Held α) : Action α (Option String × String) := do
  let text := held.written.getD held.root.render
  put name { held with written := some text }
  return (held.written, text)

/-- The expression of a description under a name. -/
def build (name : String) (plan : Blueprint α) : Action α String := do
  let e ← perform plan.build
  keep name e

/-- The simplified form of an expression under a name. -/
def simplify (name : String) (e : Expr α) : Action α String := do
  let e' ← perform fun limit => e.simplifyConfigured limit
  keep name e'

/-- The result of solving an equation; the depth is that of the settings. -/
def solve (unknown : String) (e : Expr α) : Action α (Solution α) :=
  match e with
  | .equation r a b => do
    let s ← getSettings
    perform fun limit => Solver.solve ⟨unknown, s.maxSolveDepth⟩ limit r a b
  | _ => Action.lift (.error .needsEquation)

/-- An operator over two expressions, under a name. -/
def combine (name word : String) (a b : Expr α) : Action α String := do
  let op ← Action.lift (BinaryOp.read word)
  keep name (.binary op a b)

/-- An equation between two expressions, under a name. -/
def equate (name word : String) (a b : Expr α) : Action α String := do
  let r ← Action.lift (Relation.read word)
  keep name (.equation r a b)

/-- An operator over an expression, under a name. -/
def wrap (name word : String) (e : Expr α) : Action α String := do
  let op ← Action.lift (UnaryOp.read word)
  keep name (.apply op e)

/-! Solvers. -/

/-- A solver under a name; without a depth it takes that of the settings. The answer is its depth.
-/
def makeSolver (name unknown : String) (maxDepth : Option Int) : Action α Int := do
  let depth ← match maxDepth with
    | some d => pure d
    | none => (·.maxSolveDepth) <$> getSettings
  Action.modify fun w =>
    { w with solvers := (name, ⟨unknown, depth⟩) :: w.solvers.filter (·.1 != name) }
  return depth

/-- The result of a solver for the equation of a description. -/
def solveWith (solver : Solver) (plan : Blueprint α) : Action α (Solution α) :=
  perform fun limit => do
    match ← plan.build limit with
    | .equation r a b => solver.solve limit r a b
    | _ => Run.fail .needsEquation

end Workbench

end EquationEngine
