import Mathlib.Data.List.DropRight
import EquationEngine.Double.Arithmetic
import EquationEngine.Proofs.Run
import EquationEngine.Proofs.Workbench.Actions

/-!
The settings in use follow from what was done before.

A history lists the calls made so far, each with the environment under which it was made and with
its answer. What a workbench keeps of it is one optional value. `foretold` computes the answer of
the next call from the history alone, and the invariant of a run is that the kept value gives the
same answer, under every environment.
-/

namespace EquationEngine

namespace Settings

/-! Bounds from the environment. -/

theorem bound_pos {env : Environment} {name : String} {default n : Int} (hdefault : 0 < default)
    (h : bound env name default = .ok n) : 0 < n := by
  unfold bound at h
  split at h
  · cases h
    exact hdefault
  · split at h
    · cases h
    · cases h
    · split at h
      · cases h
        assumption
      · cases h

/-- Settings read from an environment have positive bounds. -/
theorem load_pos {env : Environment} {s : Settings} (h : load env = .ok s) :
    0 < s.maxIterations ∧ 0 < s.maxSolveDepth := by
  obtain ⟨iterations, hiterations, h⟩ := bind_eq_ok.1 h
  obtain ⟨depth, hdepth, h⟩ := bind_eq_ok.1 h
  cases h
  exact ⟨bound_pos (by decide) hiterations, bound_pos (by decide) hdepth⟩

end Settings

namespace Workbench

variable {α : Type}

/-- What can be done to the settings in use and to the environment below them. -/
inductive SettingsCall where
  /-- An entry of the environment set, or removed. -/
  | setEntry (name : String) (text : Option String)
  /-- The settings in use asked for. -/
  | get
  | set (s : Settings)
  /-- The settings in use asked for, changed and put in use. -/
  | change (f : Settings → Settings)
  /-- The settings in use forgotten. -/
  | reset

namespace SettingsCall

/-- The call made at a workbench; only asking and changing give settings back. -/
def act : SettingsCall → Action α (Option Settings)
  | setEntry name text => do
    Workbench.setEntry name text
    return none
  | get => do return some (← getSettings)
  | set s => do
    setSettings s
    return none
  | change f => do return some (← changeSettings f)
  | reset => do
    forgetSettings
    return none

end SettingsCall

/-- A call that was made. -/
structure Made where
  call : SettingsCall
  /-- The environment under which it was made. -/
  environment : Environment
  answer : Except Error (Option Settings)

namespace Made

def isReset (m : Made) : Bool :=
  match m.call with
  | .reset => true
  | _ => false

/-- The settings that a call put in use, if it did. -/
def put? (m : Made) : Option Settings :=
  match m.call, m.answer with
  | .set s, _ => some s
  | .change _, .ok answer => answer
  | _, _ => none

/-- The settings that a call asked for, if it was told. -/
def told? (m : Made) : Option Settings :=
  match m.call, m.answer with
  | .get, .ok answer => answer
  | _, _ => none

end Made

/-- The calls of a history since the last reset. -/
def recent (past : List Made) : List Made := past.rtakeWhile fun m => !m.isReset

/-- The answer that a history foretells to who asks for the settings next: the settings put in use
last since the last reset; without any, those described by the environment of the first call since
then that asked for them and was told; and without such a call those described by the environment
now. -/
def foretold (past : List Made) (now : Environment) : Except Error Settings :=
  match ((recent past).filterMap Made.put?).getLast? with
  | some s => .ok s
  | none =>
    match (recent past).find? fun m => m.told?.isSome with
    | some m => Settings.load m.environment
    | none => Settings.load now

/-- The history of calls made one after another; a call that raises does not keep the next ones from
being made. -/
def history (w : Workbench α) : List SettingsCall → List Made
  | [] => []
  | c :: cs => ⟨c, w.environment, (c.act w).result⟩ :: history (c.act w).bench cs

/-! What one more call adds to a history. -/

section Foretold

variable {past : List Made} {m : Made} {now : Environment}

theorem recent_append_reset (h : m.isReset = true) : recent (past ++ [m]) = [] :=
  List.rtakeWhile_concat_neg _ _ _ (by simp [h])

theorem recent_append (h : m.isReset = false) : recent (past ++ [m]) = recent past ++ [m] :=
  List.rtakeWhile_concat_pos _ _ _ (by simp [h])

theorem foretold_reset (h : m.isReset = true) :
    foretold (past ++ [m]) now = Settings.load now := by
  simp [foretold, recent_append_reset h]

theorem foretold_put {s : Settings} (hreset : m.isReset = false) (h : m.put? = some s) :
    foretold (past ++ [m]) now = .ok s := by
  simp [foretold, recent_append hreset, h]

/-- A call that puts nothing in use and is told nothing leaves everything open as it was. -/
theorem foretold_idle (hreset : m.isReset = false) (hput : m.put? = none)
    (htold : m.told? = none) : foretold (past ++ [m]) now = foretold past now := by
  simp [foretold, recent_append hreset, hput, htold, List.find?_append]

/-- A call that is told the settings settles what was left to the environment. -/
theorem foretold_told (hreset : m.isReset = false) (hput : m.put? = none)
    (htold : m.told?.isSome = true) :
    foretold (past ++ [m]) now = foretold past m.environment := by
  cases hlast : ((recent past).filterMap Made.put?).getLast? with
  | some s => simp [foretold, recent_append hreset, hput, hlast]
  | none =>
      cases hfirst : (recent past).find? fun m => m.told?.isSome with
      | some m' => simp [foretold, recent_append hreset, hput, hlast, List.find?_append, hfirst]
      | none => simp [foretold, recent_append hreset, hput, hlast, List.find?_append, hfirst, htold]

end Foretold

/-! A run keeps what its history foretells. -/

/-- The workbench answers as the history foretells, whatever the environment is by then. -/
def Recalls (w : Workbench α) (past : List Made) : Prop :=
  ∀ now, foretold past now = w.settingsUnder now

theorem changeSettings_of_ok {w : Workbench α} {s : Settings} (f : Settings → Settings)
    (h : w.settingsUnder w.environment = .ok s) :
    changeSettings f w = ⟨{ w with settings := some (f s) }, [], .ok (f s)⟩ := by
  rw [changeSettings, Action.bind_of_ok (getSettings_of_ok h)]
  rfl

theorem changeSettings_of_error {w : Workbench α} {e : Error} (f : Settings → Settings)
    (h : w.settingsUnder w.environment = .error e) : changeSettings f w = ⟨w, [], .error e⟩ := by
  rw [changeSettings, Action.bind_of_error (getSettings_of_error h)]

namespace SettingsCall

variable {w : Workbench α}

/-- The reply to a call that asks for the settings, where they are there or can be read. -/
theorem act_of_ok {s : Settings} (h : w.settingsUnder w.environment = .ok s) :
    act .get w = ⟨{ w with settings := some s }, [], .ok (some s)⟩ ∧
      ∀ f, act (.change f) w = ⟨{ w with settings := some (f s) }, [], .ok (some (f s))⟩ :=
  ⟨Action.bind_of_ok (getSettings_of_ok h) _,
    fun f => Action.bind_of_ok (changeSettings_of_ok f h) _⟩

/-- The reply to a call that asks for the settings, where they cannot be read. -/
theorem act_of_error {e : Error} (h : w.settingsUnder w.environment = .error e) :
    act .get w = ⟨w, [], .error e⟩ ∧ ∀ f, act (.change f) w = ⟨w, [], .error e⟩ :=
  ⟨Action.bind_of_error (getSettings_of_error h) _,
    fun f => Action.bind_of_error (changeSettings_of_error f h) _⟩

/-- A call raises only where the environment cannot be read, and changes nothing then. -/
theorem act_error {c : SettingsCall} {e : Error} (h : (c.act w).result = .error e) :
    w.settingsUnder w.environment = .error e ∧ (c.act w).bench = w := by
  cases hsettings : w.settingsUnder w.environment with
  | error e' =>
      obtain ⟨hget, hchange⟩ := act_of_error hsettings
      cases c with
      | get => simp_all
      | change f => simp_all
      | setEntry _ _ | set _ | reset => cases h
  | ok s =>
      obtain ⟨hget, hchange⟩ := act_of_ok hsettings
      cases c with
      | get => simp [hget] at h
      | change f => simp [hchange] at h
      | setEntry _ _ | set _ | reset => cases h

end SettingsCall

/-- One call keeps a workbench in step with its history. -/
theorem Recalls.act {w : Workbench α} {past : List Made} (h : w.Recalls past) (c : SettingsCall) :
    (c.act w).bench.Recalls (past ++ [⟨c, w.environment, (c.act w).result⟩]) := by
  intro now
  cases c with
  | setEntry name text => exact (foretold_idle rfl rfl rfl).trans (h now)
  | set s => exact foretold_put rfl rfl
  | reset => exact foretold_reset rfl
  | get =>
      cases hsettings : w.settingsUnder w.environment with
      | ok s =>
          rw [(SettingsCall.act_of_ok hsettings).1, foretold_told rfl rfl rfl, h, hsettings]
          rfl
      | error e =>
          rw [(SettingsCall.act_of_error hsettings).1, foretold_idle rfl rfl rfl]
          exact h now
  | change f =>
      cases hsettings : w.settingsUnder w.environment with
      | ok s =>
          rw [(SettingsCall.act_of_ok hsettings).2, foretold_put rfl rfl]
          rfl
      | error e =>
          rw [(SettingsCall.act_of_error hsettings).2, foretold_idle rfl rfl rfl]
          exact h now

/-- Any number of calls keeps a workbench in step with its history. -/
theorem Recalls.after {w : Workbench α} {past : List Made} (h : w.Recalls past)
    (calls : List SettingsCall) :
    (w.after (calls.map SettingsCall.act)).Recalls (past ++ w.history calls) := by
  induction calls generalizing w past with
  | nil => simpa [history] using h
  | cons c cs ih =>
      rw [history, List.append_cons]
      exact ih (h.act c)

/-- The settings in use are determined by the history of calls on a workbench without settings: who
asks for them, or changes them, is told what the history foretells. A call that raises could not
read the environment, and leaves everything as it was. Bounds from an environment are positive. -/
theorem settings_follow_history (w : Workbench α) (h : w.settings = none)
    (calls : List SettingsCall) :
    let now := w.after (calls.map SettingsCall.act)
    let answer := foretold (w.history calls) now.environment
    (getSettings now).result = answer ∧
      (∀ f, (changeSettings f now).result = answer.map f) ∧
      (∀ (c : SettingsCall) e, (c.act now).result = .error e →
        Settings.load now.environment = .error e ∧ (c.act now).bench = now) ∧
      ∀ env s, Settings.load env = .ok s → 0 < s.maxIterations ∧ 0 < s.maxSolveDepth := by
  intro now answer
  have hstart : w.Recalls [] := fun env => by simp [foretold, recent, settingsUnder, h]
  have hrecalls : answer = now.settingsUnder now.environment := by
    simpa using hstart.after calls now.environment
  refine ⟨?_, fun f => ?_, fun c e herror => ?_, fun env s => Settings.load_pos⟩
  · rw [hrecalls, getSettings_apply]
    cases now.settingsUnder now.environment <;> rfl
  · cases hsettings : now.settingsUnder now.environment with
    | ok s => rw [changeSettings_of_ok f hsettings, hrecalls, hsettings]; rfl
    | error e => rw [changeSettings_of_error f hsettings, hrecalls, hsettings]; rfl
  · obtain ⟨hsettings, hsame⟩ := SettingsCall.act_error herror
    refine ⟨?_, hsame⟩
    cases hknown : now.settings with
    | none => simpa [settingsUnder, hknown] using hsettings
    | some s => simp [settingsUnder, hknown] at hsettings

/-- After a failure the first readable environment counts, not the one of now. -/
theorem settings_follow_history_readable :
    let entry (text : String) := SettingsCall.setEntry "MAX_ITERATIONS" (some text)
    let bench : Workbench Float := empty
    let calls := [entry "many", .get, entry "5", .get, entry "9"]
    let now := bench.after (calls.map SettingsCall.act)
    bench.settings = none ∧ (getSettings now).result = .ok { maxIterations := 5 } := by
  intro entry bench calls now
  obtain ⟨hanswer, -⟩ := settings_follow_history bench rfl calls
  exact ⟨rfl, hanswer.trans (by decide +kernel)⟩

end Workbench

end EquationEngine
