import Mathlib.Data.List.Induction
import EquationEngine.Double.Arithmetic
import EquationEngine.Proofs.Workbench.Actions

/-!
What the console shows after any use of the logger.

A logger without a file remembers two things: its level now, and whether it has the console as an
outlet. The outlet was decided by the level at which the logger was made and is never reconsidered.
So two histories that end at one level show the same lines if the loggers they left were both made
silent, or both not; otherwise they show different lines of every record that passes the level.
-/

namespace EquationEngine

namespace Reporting

/-- The lines of a record on the console of a logger that was made at one level and is at another
now. A logger made silent has no outlet and shows a warning bare. -/
def shown (made level : Level) (record : Record) : List String :=
  if !level.shows record.required then []
  else if made = .silent then if record.severity = .warning then [record.message] else []
  else [record.line]

/-- The outlets of a logger made at a level without a file. -/
def HasOutletsOf (r : Reporting) (made : Level) : Prop :=
  r.outlets = if made = .silent then [] else [.console]

theorem hasOutletsOf_install (r : Reporting) (level : Level) :
    (r.install level none).HasOutletsOf level := by
  simp [HasOutletsOf, install, outletsAt]

/-- Without a file, to deliver a record changes nothing. -/
theorem HasOutletsOf.deliver {r : Reporting} {made : Level} (h : r.HasOutletsOf made)
    (level : Level) (record : Record) :
    r.deliver level record = (r, shown made level record) := by
  unfold HasOutletsOf at h
  unfold Reporting.deliver shown
  split
  · rfl
  · by_cases hmade : made = .silent <;> simp [h, hmade, write]

theorem deliverAll_concat (level : Level) (r : Reporting) (records : List Record)
    (record : Record) :
    r.deliverAll level (records ++ [record]) =
      (((r.deliverAll level records).1.deliver level record).1,
        (r.deliverAll level records).2 ++
          ((r.deliverAll level records).1.deliver level record).2) := by
  simp [Reporting.deliverAll]

theorem HasOutletsOf.deliverAll {r : Reporting} {made : Level} (h : r.HasOutletsOf made)
    (level : Level) (records : List Record) :
    r.deliverAll level records = (r, records.flatMap (shown made level)) := by
  induction records using List.reverseRecOn with
  | nil => rfl
  | append_singleton records record ih =>
      rw [deliverAll_concat, ih, h.deliver, List.flatMap_append, List.flatMap_singleton]

/-- A line on the console of an outlet is never the bare message. -/
theorem line_ne_message (record : Record) : record.line ≠ record.message := by
  intro h
  have hlength := congrArg String.length h
  simp only [Record.line, String.length_append] at hlength
  have : " - ".length = 3 := rfl
  omega

/-- What does not pass the level is not shown, however the logger was made. -/
theorem flatMap_shown_of_hidden {made level : Level} {records : List Record}
    (h : ∀ record ∈ records, level.shows record.required = false) :
    records.flatMap (shown made level) = [] := by
  refine List.flatMap_eq_nil_iff.2 fun record hrecord => ?_
  simp [shown, h record hrecord]

/-- Whether a logger was made silent shows in every record that passes its level. -/
theorem shown_ne {made made' level : Level} {record : Record}
    (hshows : level.shows record.required = true) (hsilent : made = .silent)
    (hloud : made' ≠ .silent) : shown made level record ≠ shown made' level record := by
  have hline := line_ne_message record
  by_cases hwarning : record.severity = .warning <;>
    simp [shown, hshows, hsilent, hloud, hwarning, hline.symm]

end Reporting

namespace Workbench

variable {α : Type}

/-- Records reported by a logger without a file leave the workbench as it is. -/
theorem report_apply {w : Workbench α} {made level : Level}
    (hlevel : w.reporting.level = some level) (h : w.reporting.HasOutletsOf made)
    (records : List Record) :
    report records w = ⟨w, records.flatMap (Reporting.shown made level), .ok ()⟩ := by
  unfold report
  split
  · rename_i hempty
    rw [List.isEmpty_iff.1 hempty]
    rfl
  · rw [Action.bind_of_ok (loggerLevel_of_some hlevel)]
    simp [h.deliverAll, setReporting]

/-- A workbench with a new logger of a level and without a file. -/
def withLogger (w : Workbench α) (level : Level) : Workbench α :=
  { w with reporting := w.reporting.install level none }

/-- What can be done to the logger when no file is named. -/
inductive LoggerCall where
  /-- A new logger made. -/
  | configure (level : Level)
  | setLevel (level : Level)
  /-- The logger asked for. -/
  | get

namespace LoggerCall

def act : LoggerCall → Action α Unit
  | configure level => do
    let _ ← Workbench.configure level none
    return ()
  | setLevel level => Workbench.setLevel level
  | get => do
    let _ ← loggerLevel
    return ()

/-- The level at which the logger of now was made, after one more call: `configure` always makes a
new one, the other calls only if there is none. -/
def makes (configured : Level) (made : Option Level) : LoggerCall → Option Level
  | configure level => some level
  | setLevel level => some (made.getD level)
  | get => some (made.getD configured)

end LoggerCall

/-- The level at which the last logger was made in a history of calls, if one was made. -/
def lastMade (configured : Level) (calls : List LoggerCall) : Option Level :=
  calls.foldl (LoggerCall.makes configured) none

/-- The settings in use, or else those of the environment, name a level and no file. -/
def NamesLevel (w : Workbench α) (level : Level) : Prop :=
  ∃ s, w.settingsUnder w.environment = .ok s ∧ Level.read s.logLevel = .ok level ∧
    s.logToFile = false

/-- The logger of a workbench is the one that was made at a level, if one was made. -/
structure Tracks (w : Workbench α) (configured : Level) (made : Option Level) : Prop where
  names : w.NamesLevel configured
  level : w.reporting.level = none ↔ made = none
  outlets : ∀ m, made = some m → w.reporting.HasOutletsOf m

namespace Tracks

variable {w : Workbench α} {configured : Level} {made : Option Level}

/-- A logger made in place of whatever there was. -/
theorem install (h : w.Tracks configured made) (level : Level) :
    (w.withLogger level).Tracks configured (some level) where
  names := h.names
  level := by simp [withLogger, Reporting.install]
  outlets m hm := by
    cases hm
    exact Reporting.hasOutletsOf_install _ _

theorem exists_made (h : w.Tracks configured made) {level : Level}
    (hlevel : w.reporting.level = some level) : ∃ m, made = some m := by
  refine Option.ne_none_iff_exists'.1 fun hmade => ?_
  simp [h.level.2 hmade] at hlevel

theorem setLevel (h : w.Tracks configured made) (level : Level) :
    ({ w with reporting := w.reporting.setLevel level } : Workbench α).Tracks configured
      (some (made.getD level)) := by
  cases hlevel : w.reporting.level with
  | none =>
      have hset : w.reporting.setLevel level = w.reporting.install level none := by
        rw [Reporting.setLevel, hlevel]
      rw [hset, h.level.1 hlevel]
      exact h.install level
  | some old =>
      obtain ⟨m, rfl⟩ := h.exists_made hlevel
      have hset : w.reporting.setLevel level = { w.reporting with level := some level } := by
        rw [Reporting.setLevel, hlevel]
      -- the outlets are those of the logger that is there
      exact ⟨h.names, by simp [hset], fun m' hm' => by rw [hset]; exact h.outlets m' hm'⟩

theorem loggerLevel (h : w.Tracks configured made) :
    (Workbench.loggerLevel w).bench.Tracks configured (some (made.getD configured)) := by
  cases hlevel : w.reporting.level with
  | none =>
      obtain ⟨s, hs, hread, hfile⟩ := h.names
      have hnamed : ({ w with settings := some s } : Workbench α).Tracks configured made :=
        ⟨⟨s, rfl, hread, hfile⟩, h.level, h.outlets⟩
      rw [loggerLevel_of_none hlevel hs hread, h.level.1 hlevel,
        Reporting.logFile?_eq_none hfile]
      exact hnamed.install configured
  | some level =>
      obtain ⟨m, rfl⟩ := h.exists_made hlevel
      rw [loggerLevel_of_some hlevel]
      exact h

/-- One call leaves the logger that `makes` says. -/
theorem act (h : w.Tracks configured made) (c : LoggerCall) :
    (c.act w).bench.Tracks configured (c.makes configured made) := by
  cases c with
  | configure level => exact h.install level
  | setLevel level => exact h.setLevel level
  | get =>
      have hbench : (LoggerCall.get.act w).bench = (Workbench.loggerLevel w).bench :=
        Action.bench_bind_pure _ _
      rw [hbench]
      exact h.loggerLevel

theorem after (h : w.Tracks configured made) (calls : List LoggerCall) :
    (w.after (calls.map LoggerCall.act)).Tracks configured
      (calls.foldl (LoggerCall.makes configured) made) := by
  induction calls generalizing w made with
  | nil => exact h
  | cons c cs ih => exact ih (h.act c)

end Tracks

/-- The lines that a logger shows after a history of calls. -/
theorem console_after {w : Workbench α} {configured : Level} (hnames : w.NamesLevel configured)
    (hnew : w.reporting.level = none) {calls : List LoggerCall} {level : Level}
    (hlevel : (w.after (calls.map LoggerCall.act)).reporting.level = some level) :
    ∃ m, lastMade configured calls = some m ∧ ∀ records,
      (report records (w.after (calls.map LoggerCall.act))).console =
        records.flatMap (Reporting.shown m level) := by
  have hstart : w.Tracks configured none := ⟨hnames, by simp [hnew], nofun⟩
  have htracks := hstart.after calls
  obtain ⟨m, hm⟩ := htracks.exists_made hlevel
  exact ⟨m, hm, fun records => by rw [report_apply hlevel (htracks.outlets m hm)]⟩

/-- Two histories of `configure` without a file, `setLevel` and asking for the logger, under
settings that name a level and no file, have left loggers of one level. If both loggers were made
silent, or neither, the console shows the same lines of all records from then on; otherwise it shows
different ones of every record that passes the level. Of records that do not pass it, neither
console ever shows a line. -/
theorem console_of_logger_calls {w₁ w₂ : Workbench α} {configured₁ configured₂ level : Level}
    (hnames₁ : w₁.NamesLevel configured₁) (hnames₂ : w₂.NamesLevel configured₂)
    (hnew₁ : w₁.reporting.level = none) (hnew₂ : w₂.reporting.level = none)
    (calls₁ calls₂ : List LoggerCall)
    (hlevel₁ : (w₁.after (calls₁.map LoggerCall.act)).reporting.level = some level)
    (hlevel₂ : (w₂.after (calls₂.map LoggerCall.act)).reporting.level = some level) :
    let console₁ records := (report records (w₁.after (calls₁.map LoggerCall.act))).console
    let console₂ records := (report records (w₂.after (calls₂.map LoggerCall.act))).console
    let silent₁ := lastMade configured₁ calls₁ = some .silent
    let silent₂ := lastMade configured₂ calls₂ = some .silent
    ((silent₁ ↔ silent₂) → ∀ records, console₁ records = console₂ records) ∧
      (¬(silent₁ ↔ silent₂) → ∀ record, level.shows record.required = true →
        console₁ [record] ≠ console₂ [record]) ∧
      ∀ records, (∀ record ∈ records, level.shows record.required = false) →
        console₁ records = [] ∧ console₂ records = [] := by
  obtain ⟨m₁, hmade₁, hconsole₁⟩ := console_after hnames₁ hnew₁ hlevel₁
  obtain ⟨m₂, hmade₂, hconsole₂⟩ := console_after hnames₂ hnew₂ hlevel₂
  intro console₁ console₂ silent₁ silent₂
  have hsilent₁ : silent₁ ↔ m₁ = .silent := by simp [silent₁, hmade₁]
  have hsilent₂ : silent₂ ↔ m₂ = .silent := by simp [silent₂, hmade₂]
  rw [hsilent₁, hsilent₂]
  refine ⟨?_, ?_, ?_⟩
  · intro halike records
    have hshown : Reporting.shown m₁ level = Reporting.shown m₂ level := by
      funext record
      simp only [Reporting.shown, halike]
    simp only [console₁, console₂, hconsole₁, hconsole₂, hshown]
  · intro hunlike record hshows
    simp only [console₁, console₂, hconsole₁, hconsole₂, List.flatMap_singleton]
    by_cases hm₁ : m₁ = .silent
    · exact Reporting.shown_ne hshows hm₁ fun hm₂ => hunlike (iff_of_true hm₁ hm₂)
    · have hm₂ : m₂ = .silent := Decidable.not_not.1 fun hm₂ => hunlike (iff_of_false hm₁ hm₂)
      exact (Reporting.shown_ne hshows hm₂ hm₁).symm
  · intro records hhidden
    simp only [console₁, console₂, hconsole₁, hconsole₂]
    exact ⟨Reporting.flatMap_shown_of_hidden hhidden, Reporting.flatMap_shown_of_hidden hhidden⟩

theorem namesLevel_empty : (empty : Workbench Float).NamesLevel .minimal := ⟨{}, rfl, rfl, rfl⟩

/-- A logger turned down to warnings shows what one made for warnings shows. -/
theorem console_of_logger_calls_turned_down :
    let bench : Workbench Float := empty
    let down := bench.after ([.configure .verbose, .get, .setLevel .minimal].map LoggerCall.act)
    let fresh := bench.after ([.setLevel .minimal, .get].map LoggerCall.act)
    bench.NamesLevel .minimal ∧ bench.reporting.level = none ∧
      down.reporting.level = some .minimal ∧ fresh.reporting.level = some .minimal ∧
      ∀ records, (report records down).console = (report records fresh).console := by
  intro bench down fresh
  have hdown : down.reporting.level = some .minimal := rfl
  have hfresh : fresh.reporting.level = some .minimal := rfl
  obtain ⟨hsame, -⟩ := console_of_logger_calls namesLevel_empty namesLevel_empty rfl rfl
    [.configure .verbose, .get, .setLevel .minimal] [.setLevel .minimal, .get] hdown hfresh
  exact ⟨namesLevel_empty, rfl, hdown, hfresh, hsame (by decide)⟩

/-- A logger made silent and then raised does not show what one made at its level shows. -/
theorem raised_logger_stays_bare :
    let bench : Workbench Float := empty
    let raised := bench.after ([.configure .silent, .setLevel .moderate].map LoggerCall.act)
    let direct := bench.after ([.configure .moderate].map LoggerCall.act)
    raised.reporting.level = some .moderate ∧ direct.reporting.level = some .moderate ∧
      (report [.info .moderate "done"] raised).console = [] ∧
      (report [.info .moderate "done"] direct).console = ["INFO - done"] ∧
      (report [.warning "stopped"] raised).console = ["stopped"] ∧
      (report [.warning "stopped"] direct).console = ["WARNING - stopped"] :=
  ⟨rfl, rfl, rfl, rfl, rfl, rfl⟩

end Workbench

end EquationEngine
