import EquationEngine.Settings
import EquationEngine.Run

/-!
Delivering reports.

A logger has a level, and there are outlets to which records go. The outlets are chosen when a
logger is made: the console unless its level is silent, and a file if one is wanted. Changing the
level later does not change the outlets, and forgetting the logger leaves them in place until the
next one is made. A record that passes the level while there is no outlet at all is printed bare
if it is a warning and lost otherwise.

The system may refuse to open a file. The outlets of the logger that was to be made are in place by
then, all but the file, while the logger is still the one that was there before.
-/

namespace EquationEngine

/-- A place where records are written. -/
inductive Outlet where
  | console
  | file (path : String)
  deriving DecidableEq, Repr

/-- Files and the lines in them, each file at most once. -/
abbrev Files := List (String × List String)

namespace Files

/-- A file with lines added at its end; the file is made if it does not exist. -/
def append (files : Files) (path : String) (lines : List String) : Files :=
  match files with
  | [] => [(path, lines)]
  | (p, ls) :: rest =>
    if p = path then (p, ls ++ lines) :: rest else (p, ls) :: append rest path lines

end Files

/-- What reports ask of the system. -/
structure Host where
  /-- The date and the time now, in digits. -/
  time : String := "19700101_000000"
  /-- The files that are not opened, each with the reason given. -/
  refusals : List (String × String) := []
  deriving DecidableEq, Repr

/-- The state of reporting. -/
structure Reporting where
  /-- The level of the current logger, if there is one. -/
  level : Option Level
  outlets : List Outlet
  files : Files
  host : Host
  deriving DecidableEq, Repr

namespace Reporting

/-- Before anything was reported or configured. -/
def start : Reporting := ⟨none, [], [], {}⟩

/-- The outlets of a new logger. -/
def outletsAt (level : Level) (file : Option String) : List Outlet :=
  (if level = .silent then [] else [.console]) ++ file.elim [] fun path => [.file path]

/-- A new logger in place of the current one. -/
def install (r : Reporting) (level : Level) (file : Option String) : Reporting :=
  { r with
    level := some level
    outlets := outletsAt level file
    files := file.elim r.files fun path => r.files.append path [] }

/-- Why a file cannot be opened, if it cannot. -/
def refusal? (r : Reporting) (path : String) : Option String := r.host.refusals.lookup path

/-- A new logger in place of the current one, if its file can be opened. -/
def tryInstall (r : Reporting) (level : Level) (file : Option String) :
    Reporting × Except Error Unit :=
  match file.bind r.refusal? with
  | some reason => ({ r with outlets := outletsAt level none }, .error (.unopened reason))
  | none => (r.install level file, .ok ())

@[simp] theorem tryInstall_none (r : Reporting) (level : Level) :
    r.tryInstall level none = (r.install level none, .ok ()) := rfl

/-- The level of the current logger changed, or a logger of that level made. -/
def setLevel (r : Reporting) (level : Level) : Reporting :=
  match r.level with
  | none => r.install level none
  | some _ => { r with level := some level }

/-- The current logger forgotten. -/
def forget (r : Reporting) : Reporting := { r with level := none }

/-- The log file for which no name is given; it is named after the time. -/
def stampedFile (r : Reporting) : String := "symbolic_algebra_" ++ r.host.time ++ ".log"

/-- The log file that settings want, if they want one. -/
def logFile? (r : Reporting) (s : Settings) : Option String :=
  if s.logToFile then some (s.logFile.getD r.stampedFile) else none

theorem logFile?_eq_none {s : Settings} (h : s.logToFile = false) (r : Reporting) :
    r.logFile? s = none := by
  simp [logFile?, h]

/-- A line written to all outlets, with what the console shows of it. -/
def write (r : Reporting) (line : String) : Reporting × List String :=
  r.outlets.foldl
    (fun (r, shown) outlet =>
      match outlet with
      | .console => (r, shown ++ [line])
      | .file path => ({ r with files := r.files.append path [line] }, shown))
    (r, [])

/-- A record delivered by the logger of a level, with what the console shows of it. -/
def deliver (level : Level) (r : Reporting) (record : Record) : Reporting × List String :=
  if !level.shows record.required then (r, [])
  else if r.outlets.isEmpty then
    (r, if record.severity = .warning then [record.message] else [])
  else r.write record.line

/-- Records delivered one after another, with what the console shows of them. -/
def deliverAll (level : Level) (r : Reporting) (records : List Record) : Reporting × List String :=
  records.foldl
    (fun (r, shown) record =>
      let (r', lines) := r.deliver level record
      (r', shown ++ lines))
    (r, [])

end Reporting

/-- What a console at a level shows of a computation. -/
def Run.console {β : Type} (level : Level) (r : Run β) : List String :=
  ((Reporting.start.install level none).deliverAll level (r.events.map Event.record)).2

end EquationEngine
