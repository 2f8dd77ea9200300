import EquationEngine.Double.Arithmetic
import EquationEngine.Proofs.Workbench.Reporting

/-!
The level of the logger selects among the lines and has no other influence.

An action is uniform if its reply on workbenches that differ in the level of their logger is always
the same but for the lines on the console, and these are the ones that the level shows of one list
of events. Uniform actions follow one another as uniform actions. Computations are uniform, because
their events are fixed before a logger sees any of them.
-/

namespace EquationEngine

namespace Level

/-- The lines of the records that a level shows. -/
def lines (level : Level) (records : List Record) : List String :=
  (records.filter fun record => level.shows record.required).map Record.line

@[simp] theorem lines_nil (level : Level) : level.lines [] = [] := rfl

@[simp] theorem lines_append (level : Level) (first second : List Record) :
    level.lines (first ++ second) = level.lines first ++ level.lines second := by
  simp [lines]

/-- A higher level shows whatever a lower one shows. -/
theorem shows_of_le {low high required : Level} (h : low.rank ≤ high.rank)
    (hshows : low.shows required = true) : high.shows required = true := by
  simp only [shows, decide_eq_true_eq] at *
  omega

end Level

namespace Record

/-- The level that a line on the console requires, as its first words tell: warnings, what is
debugged, the steps of a solver, and its results. -/
def requiredBy (line : String) : Level :=
  if "WARNING - ".toList.isPrefixOf line.toList then .minimal
  else if "DEBUG - ".toList.isPrefixOf line.toList then .verbose
  else if "INFO - STEP: ".toList.isPrefixOf line.toList then .detailed
  else .moderate

end Record

namespace Event

/-- The line of an event tells which level it requires. -/
theorem requiredBy_line (e : Event) : Record.requiredBy e.record.line = e.record.required := by
  cases e <;>
    simp [record, Record.line, Record.debug, Record.warning, Record.step, Record.info,
      Record.requiredBy, Severity.name, List.isPrefixOf]

theorem silent_shows (e : Event) : Level.silent.shows e.record.required = false := by
  cases e <;> rfl

/-- A console at a low level shows the lines of a higher one that require no more than the low
level. -/
theorem lines_of_le {low high : Level} (h : low.rank ≤ high.rank) (events : List Event) :
    low.lines (events.map record) =
      (high.lines (events.map record)).filter fun line => low.shows (Record.requiredBy line) := by
  simp only [Level.lines, List.filter_map, List.map_map, List.filter_filter]
  congr 1
  refine List.filter_congr fun e _ => ?_
  simp only [Function.comp, requiredBy_line]
  cases hlow : low.shows e.record.required with
  | false => simp
  | true => simp [Level.shows_of_le h hlow]

/-- A logger made at a level shows of an event what the level shows, also where it is silent. -/
theorem shown_record (level : Level) (e : Event) :
    Reporting.shown level level e.record = level.lines [e.record] := by
  cases hshows : level.shows e.record.required with
  | false => simp [Reporting.shown, Level.lines, hshows]
  | true =>
      have hloud : level ≠ .silent := by
        rintro rfl
        simp [silent_shows] at hshows
      simp [Reporting.shown, Level.lines, hshows, hloud]

theorem flatMap_shown (level : Level) (events : List Event) :
    (events.map record).flatMap (Reporting.shown level level) =
      level.lines (events.map record) := by
  induction events with
  | nil => rfl
  | cons e events ih =>
      rw [List.map_cons, List.flatMap_cons, ih, shown_record, ← Level.lines_append,
        List.singleton_append]

end Event

namespace Workbench

variable {α β γ : Type}

/-- The reply of an action does not depend on the level of a new logger, but for the lines on the
console, which are those that the level shows of one list of events. -/
def UniformAt (a : Action α β) (w : Workbench α) : Prop :=
  ∃ (bench : Workbench α) (events : List Event) (result : Except Error β), ∀ level,
    a (w.withLogger level) =
      ⟨bench.withLogger level, level.lines (events.map Event.record), result⟩

namespace UniformAt

variable {w : Workbench α}

theorem bind {a : Action α β} {next : β → Action α γ} (ha : UniformAt a w)
    (hnext : ∀ b bench, UniformAt (next b) bench) : UniformAt (a >>= next) w := by
  obtain ⟨bench, events, result, hreply⟩ := ha
  cases result with
  | error e => exact ⟨bench, events, .error e, fun level => Action.bind_of_error (hreply level) _⟩
  | ok b =>
      obtain ⟨bench', events', result', hreply'⟩ := hnext b bench
      refine ⟨bench', events ++ events', result', fun level => ?_⟩
      rw [Action.bind_of_ok (hreply level), hreply', List.map_append, Level.lines_append]

/-- Asking for the settings is silent. -/
theorem getSettings (w : Workbench α) : UniformAt getSettings w := by
  cases hsettings : w.settingsUnder w.environment with
  | ok s =>
      exact ⟨{ w with settings := some s }, [], .ok s, fun level => getSettings_of_ok hsettings⟩
  | error e => exact ⟨w, [], .error e, fun level => getSettings_of_error hsettings⟩

/-- The events of a finished computation go to the console as far as the level shows them. -/
theorem conclude (run : Run β) (w : Workbench α) : UniformAt (conclude run) w := by
  refine ⟨w, run.events, run.outcome, fun level => ?_⟩
  have hreport : report (run.events.map Event.record) (w.withLogger level) =
      ⟨w.withLogger level, level.lines (run.events.map Event.record), .ok ()⟩ := by
    rw [report_apply rfl (Reporting.hasOutletsOf_install w.reporting level), Event.flatMap_shown]
  rw [Workbench.conclude, Action.bind_of_ok hreport]
  simp

theorem perform (compute : Int → Run β) (w : Workbench α) : UniformAt (perform compute) w := by
  have hlimit (level : Level) : (w.withLogger level).iterationLimit = w.iterationLimit := rfl
  cases hconsulted : (compute w.iterationLimit).consulted with
  | false =>
      obtain ⟨bench, events, result, hreply⟩ := conclude (compute w.iterationLimit) w
      refine ⟨bench, events, result, fun level => ?_⟩
      rw [perform_apply, hlimit, if_neg (by simp [hconsulted]), hreply]
  | true =>
      obtain ⟨bench, events, result, hreply⟩ :=
        (getSettings w).bind fun _ => conclude (compute w.iterationLimit)
      refine ⟨bench, events, result, fun level => ?_⟩
      rw [perform_apply, hlimit, if_pos hconsulted, hreply]

end UniformAt

variable [Arithmetic α]

/-- What the engine is asked for, by the type of its answer. -/
inductive Request (α : Type) : Type → Type where
  /-- A text to be read. -/
  | parse (text : String) : Request α (Expr α)
  /-- A text to be read as an equation. -/
  | parseEquation (text : String) : Request α (Expr α)
  /-- A tree to be simplified, under the configured limit if none is given. -/
  | simplify (limit : Option Int) (e : Expr α) : Request α (Expr α)
  /-- A tree to be solved for a name, under the configured depth if none is given. -/
  | solve (maxDepth : Option Int) (name : String) (e : Expr α) : Request α (Solution α)

def Request.act : Request α β → Action α β
  | parse text => perform fun limit => Expr.parse limit text
  | parseEquation text => perform fun limit => Expr.parseEquation limit text
  | simplify none e => perform fun limit => e.simplifyConfigured limit
  | simplify (some limit) e => perform fun _ => e.simplify limit
  | solve none name e => Workbench.solve name e
  | solve (some maxDepth) name e => perform fun limit => e.solveFor limit maxDepth name

theorem Request.uniform (q : Request α β) (w : Workbench α) : UniformAt q.act w := by
  cases q with
  | parse text | parseEquation text =>
      rw [act]
      exact .perform _ w
  | simplify limit e =>
      cases limit <;>
        · rw [act]
          exact .perform _ w
  | solve maxDepth name e =>
      cases maxDepth with
      | some maxDepth =>
          rw [act]
          exact .perform _ w
      | none =>
          cases e with
          | equation r a b => exact (UniformAt.getSettings w).bind fun s w => .perform _ w
          | _ => exact ⟨w, [], .error .needsEquation, fun _ => rfl⟩

/-- A request made right after a new logger of some level has the same answer at every level. The
console at a lower level shows the lines of a higher one, in their order, without those that require
more than the lower level; and the workbenches left behind differ in the logger only. -/
theorem lower_level_filters (w : Workbench α) (q : Request α β) {low high : Level}
    (h : low.rank ≤ high.rank) :
    let reply (level : Level) : Reply α β := (do let _ ← configure level none; q.act) w
    (reply low).result = (reply high).result ∧
      (reply low).console =
        (reply high).console.filter (fun line => low.shows (Record.requiredBy line)) ∧
      (reply low).bench = (reply high).bench.withLogger low := by
  intro reply
  have hreply (level : Level) : reply level = q.act (w.withLogger level) := rfl
  obtain ⟨bench, events, result, huniform⟩ := q.uniform w
  rw [hreply, hreply, huniform, huniform]
  exact ⟨rfl, Event.lines_of_le h events, rfl⟩

/-- The step that solves `x + y = z` is shown from the detailed level on, its result earlier. -/
theorem lower_level_filters_sum :
    let e : Expr Float := .equation .eq (.binary .add (.var "x") (.var "y")) (.var "z")
    let q : Request Float (Solution Float) := .solve none "x" e
    let bench : Workbench Float := empty
    let reply (level : Level) := (do let _ ← configure level none; q.act) bench
    Level.moderate.rank ≤ Level.detailed.rank ∧
      (reply .detailed).console = ["INFO - STEP: (x + y) = z  =>  x = (z - y)",
        "INFO - solve (x + y) = z for x: (-y + z)"] ∧
      (reply .moderate).console = ["INFO - solve (x + y) = z for x: (-y + z)"] := by
  intro e q bench reply
  have hdetailed : (reply .detailed).console = ["INFO - STEP: (x + y) = z  =>  x = (z - y)",
      "INFO - solve (x + y) = z for x: (-y + z)"] := by
    decide +kernel
  have hle : Level.moderate.rank ≤ Level.detailed.rank := by decide
  obtain ⟨-, hconsole, -⟩ := lower_level_filters bench q hle
  refine ⟨hle, hdetailed, hconsole.trans ?_⟩
  rw [hdetailed]
  decide

end Workbench

end EquationEngine
