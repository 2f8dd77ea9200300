import EquationEngine.Workbench

/-!
The reply of an action at a workbench, from the replies of its parts.

The lemmas of the first section take an action apart along its text. Those of the second say what
asking for the settings, asking for the logger and performing a computation come to. The answer
about the settings depends on nothing but the settings in use and the environment, and they are in
use from then on.
-/

namespace EquationEngine

namespace Action

variable {α β γ : Type} (w : Workbench α)

@[simp] theorem pure_apply (b : β) : (pure b : Action α β) w = ⟨w, [], .ok b⟩ := rfl

@[simp] theorem lift_apply (result : Except Error β) : lift result w = ⟨w, [], result⟩ := rfl

@[simp] theorem get_apply : (get : Action α (Workbench α)) w = ⟨w, [], .ok w⟩ := rfl

@[simp] theorem modify_apply (f : Workbench α → Workbench α) :
    modify f w = ⟨f w, [], .ok ()⟩ := rfl

@[simp] theorem display_apply (lines : List String) : display lines w = ⟨w, lines, .ok ()⟩ := rfl

variable {w} {a : Action α β} {w' : Workbench α} {lines : List String}

/-- An action that answers is followed by the next one, on the workbench it left. -/
theorem bind_of_ok {b : β} (h : a w = ⟨w', lines, .ok b⟩) (next : β → Action α γ) :
    (a >>= next) w =
      ⟨(next b w').bench, lines ++ (next b w').console, (next b w').result⟩ := by
  show a.andThen next w = _
  rw [andThen, h]

/-- An action that raises is the last one. -/
theorem bind_of_error {e : Error} (h : a w = ⟨w', lines, .error e⟩) (next : β → Action α γ) :
    (a >>= next) w = ⟨w', lines, .error e⟩ := by
  show a.andThen next w = _
  rw [andThen, h]

/-- What only looks at the workbench shows nothing. -/
@[simp] theorem get_bind (next : Workbench α → Action α γ) : (get >>= next) w = next w w :=
  rfl

@[simp] theorem pure_bind (b : β) (next : β → Action α γ) : (pure b >>= next) w = next b w :=
  rfl

@[simp] theorem modify_bind (f : Workbench α → Workbench α) (next : Unit → Action α γ) :
    (modify f >>= next) w = next () (f w) :=
  rfl

/-- To put an answer into another form leaves the same workbench. -/
theorem bench_bind_pure (a : Action α β) (f : β → γ) :
    ((a >>= fun b => pure (f b)) w).bench = (a w).bench := by
  cases hreply : a w with
  | mk w' lines result =>
      cases result with
      | error e => rw [bind_of_error hreply]
      | ok b => rw [bind_of_ok hreply, pure_apply]

/-- An action whose answer is not looked at. -/
@[simp] theorem discard_bind (a : Action α β) (next : PUnit → Action α γ) :
    (discard a >>= next) w = (a >>= fun _ => next ()) w := by
  show ((a >>= fun _ => lift (.ok ())) >>= next) w = _
  cases hreply : a w with
  | mk w' lines result =>
      cases result with
      | error e => rw [bind_of_error (bind_of_error hreply _), bind_of_error hreply]
      | ok b =>
          have hfirst : (a >>= fun _ => lift (.ok ())) w = ⟨w', lines, .ok PUnit.unit⟩ := by
            simp [bind_of_ok hreply]
          rw [bind_of_ok hfirst, bind_of_ok hreply]

end Action

/-- A new logger is made, or the system refuses the file that it was to write to. -/
theorem Reporting.tryInstall_result (r : Reporting) (level : Level) (file : Option String) :
    (r.tryInstall level file).2 = .ok () ∨
      ∃ path reason, file = some path ∧ r.refusal? path = some reason ∧
        (r.tryInstall level file).2 = .error (.unopened reason) := by
  cases file with
  | none => exact .inl rfl
  | some path =>
      cases hrefusal : r.refusal? path with
      | none => exact .inl (by simp [tryInstall, hrefusal])
      | some reason => exact .inr ⟨path, reason, rfl, hrefusal, by simp [tryInstall, hrefusal]⟩

namespace Workbench

variable {α β : Type}

/-- A workbench after actions taken one after another. One that raises does not keep the next ones
from being taken. -/
def after (w : Workbench α) (actions : List (Action α β)) : Workbench α :=
  actions.foldl (fun w a => (a w).bench) w

@[simp] theorem after_nil (w : Workbench α) : w.after ([] : List (Action α β)) = w := rfl

@[simp] theorem after_cons (w : Workbench α) (a : Action α β) (actions : List (Action α β)) :
    w.after (a :: actions) = (a w).bench.after actions := rfl

/-- The answer of a workbench to who asks for the settings under an environment. -/
def settingsUnder (w : Workbench α) (env : Environment) : Except Error Settings :=
  (w.settings.map Except.ok).getD (Settings.load env)

/-- Asking for the settings leaves them in use; if they cannot be read, nothing changes. -/
theorem getSettings_apply (w : Workbench α) :
    getSettings w = match w.settingsUnder w.environment with
      | .ok s => ⟨{ w with settings := some s }, [], .ok s⟩
      | .error e => ⟨w, [], .error e⟩ := by
  cases hknown : w.settings with
  | some s =>
      have hsame : { w with settings := some s } = w := by rw [← hknown]
      simp [getSettings, settingsUnder, hknown, hsame]
  | none =>
      cases hload : Settings.load w.environment with
      | error e =>
          have hasked : (loadSettings : Action α Settings) w = ⟨w, [], .error e⟩ := by
            simp [loadSettings, hload]
          simp [getSettings, settingsUnder, hknown, hload, Action.bind_of_error hasked]
      | ok s =>
          have hasked : (loadSettings : Action α Settings) w = ⟨w, [], .ok s⟩ := by
            simp [loadSettings, hload]
          simp [getSettings, settingsUnder, hknown, hload, Action.bind_of_ok hasked, setSettings]

theorem getSettings_of_ok {w : Workbench α} {s : Settings}
    (h : w.settingsUnder w.environment = .ok s) :
    getSettings w = ⟨{ w with settings := some s }, [], .ok s⟩ := by
  rw [getSettings_apply, h]

theorem getSettings_of_error {w : Workbench α} {e : Error}
    (h : w.settingsUnder w.environment = .error e) : getSettings w = ⟨w, [], .error e⟩ := by
  rw [getSettings_apply, h]

theorem loggerLevel_of_some {w : Workbench α} {level : Level}
    (h : w.reporting.level = some level) : loggerLevel w = ⟨w, [], .ok level⟩ := by
  simp [loggerLevel, h]

/-- A new logger is installed as far as the system lets it. -/
theorem makeLogger_apply (w : Workbench α) (level : Level) (file : Option String) :
    makeLogger level file w =
      ⟨{ w with reporting := (w.reporting.tryInstall level file).1 }, [],
        (w.reporting.tryInstall level file).2⟩ := rfl

/-- The first to ask for the logger has it made from the settings. -/
theorem loggerLevel_of_none {w : Workbench α} {level : Level} {s : Settings}
    (h : w.reporting.level = none) (hs : w.settingsUnder w.environment = .ok s)
    (hread : Level.read s.logLevel = .ok level) :
    loggerLevel w =
      ⟨{ w with
          settings := some s
          reporting := (w.reporting.tryInstall level (w.reporting.logFile? s)).1 }, [],
        (w.reporting.tryInstall level (w.reporting.logFile? s)).2.map fun _ => level⟩ := by
  have hmade (bench : Workbench α) (file : Option String) :
      (makeLogger level file >>= fun _ => pure level) bench =
        ⟨{ bench with reporting := (bench.reporting.tryInstall level file).1 }, [],
          (bench.reporting.tryInstall level file).2.map fun _ => level⟩ := by
    have hreply := makeLogger_apply bench level file
    cases hresult : (bench.reporting.tryInstall level file).2 with
    | error e =>
        rw [hresult] at hreply
        rw [Action.bind_of_error hreply]
        rfl
    | ok _ =>
        rw [hresult] at hreply
        rw [Action.bind_of_ok hreply]
        rfl
  simp [loggerLevel, h, Action.bind_of_ok (getSettings_of_ok hs), hread,
    Action.bind_of_ok (Action.lift_apply _ _), hmade]

/-- The iteration limit of the computations at a workbench; where the settings cannot be read it is
the usual one. -/
def iterationLimit (w : Workbench α) : Int :=
  match w.settingsUnder w.environment with
  | .ok s => s.maxIterations
  | .error _ => ({} : Settings).maxIterations

/-- The events of a finished computation reported, and its outcome given back. -/
def conclude (run : Run β) : Action α β := do
  report (run.events.map Event.record)
  Action.lift run.outcome

/-- A computation is made under the iteration limit of the workbench. If it asked for that limit,
the settings have to be readable before anything of it is reported. -/
theorem perform_apply (compute : Int → Run β) (w : Workbench α) :
    perform compute w =
      if (compute w.iterationLimit).consulted then
        (getSettings >>= fun _ => conclude (compute w.iterationLimit)) w
      else conclude (compute w.iterationLimit) w := by
  show (if (compute w.iterationLimit).consulted then
      (discard getSettings >>= fun _ => conclude (compute w.iterationLimit))
    else conclude (compute w.iterationLimit)) w = _
  split
  · exact Action.discard_bind _ _
  · rfl

end Workbench

end EquationEngine
