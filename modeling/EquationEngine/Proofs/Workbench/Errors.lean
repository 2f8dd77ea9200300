import Mathlib
import EquationEngine.Double.Arithmetic
import EquationEngine.Proofs.Expr.Parser
import EquationEngine.Proofs.Solve.Search
import EquationEngine.Proofs.Workbench.Actions

/-!
The errors that reach whoever reads, simplifies or solves at a workbench.

If the settings can be read, the level of reports is a known one, and the system opens the log file,
a computation at the workbench ends as it does on its own. What is left are the errors of the
computations. All of them are of the documented families but one: the remainder of an infinite
dividend, which constant folding does not keep in the tree as it keeps a power without value. It
needs a remainder in the input.

A log file is opened when the first record is to be delivered. If the system refuses it, the
refusal is what the computation ends in, whatever its own outcome.
-/

namespace EquationEngine

open EquationEngine.Expr

/-! Actions at a workbench. -/

namespace Workbench

variable {α β : Type}

/-- The settings under which a workbench computes, once they are known or can be read. -/
def Configured (w : Workbench α) (s : Settings) : Prop :=
  w.settings = some s ∨ w.settings = none ∧ Settings.load w.environment = .ok s

/-- A logger is there, or the settings name a level to make one. -/
def Levelled (w : Workbench α) (s : Settings) : Prop :=
  w.reporting.level ≠ none ∨ ∃ level, Level.read s.logLevel = .ok level

theorem Configured.settingsUnder {w : Workbench α} {s : Settings} (h : w.Configured s) :
    w.settingsUnder w.environment = .ok s := by
  rcases h with hknown | ⟨hnone, hload⟩
  · simp [Workbench.settingsUnder, hknown]
  · simp [Workbench.settingsUnder, hnone, hload]

/-- There is no logger yet, and the system refuses the log file that the settings want. -/
def Refuses (w : Workbench α) (s : Settings) (reason : String) : Prop :=
  w.reporting.level = none ∧
    ∃ path, w.reporting.logFile? s = some path ∧ w.reporting.refusal? path = some reason

/-- Asking for the logger shows nothing, and fails only if the system refuses its file. -/
theorem loggerLevel_result {w : Workbench α} {s : Settings} (hs : w.Configured s)
    (hl : w.Levelled s) :
    (∃ bench level, loggerLevel w = ⟨bench, [], .ok level⟩) ∨
      ∃ bench reason, loggerLevel w = ⟨bench, [], .error (.unopened reason)⟩ ∧
        w.Refuses s reason := by
  cases hlevel : w.reporting.level with
  | some level => exact .inl ⟨w, level, loggerLevel_of_some hlevel⟩
  | none =>
      obtain hthere | ⟨level, hread⟩ := hl
      · exact absurd hlevel hthere
      have hreply := loggerLevel_of_none hlevel hs.settingsUnder hread
      obtain hmade | ⟨path, reason, hpath, hreason, hmade⟩ :=
        w.reporting.tryInstall_result level (w.reporting.logFile? s)
      · rw [hmade] at hreply
        exact .inl ⟨_, level, hreply⟩
      · rw [hmade] at hreply
        exact .inr ⟨_, reason, hreply, hlevel, path, hpath, hreason⟩

theorem conclude_result {w : Workbench α} {s : Settings} (hs : w.Configured s) (hl : w.Levelled s)
    (run : Run β) :
    (conclude run w).result = run.outcome ∨
      ∃ reason, (conclude run w).result = .error (.unopened reason) ∧ w.Refuses s reason := by
  have hreport : (∃ bench lines,
      report (run.events.map Event.record) w = ⟨bench, lines, .ok ()⟩) ∨
      ∃ bench reason, report (run.events.map Event.record) w =
        ⟨bench, [], .error (.unopened reason)⟩ ∧ w.Refuses s reason := by
    unfold report
    split
    · exact .inl ⟨w, [], rfl⟩
    · obtain ⟨bench, level, hlevel⟩ | ⟨bench, reason, hlevel, hrefuses⟩ :=
        loggerLevel_result hs hl
      · rw [Action.bind_of_ok hlevel]
        exact .inl ⟨_, _, rfl⟩
      · exact .inr ⟨bench, reason, Action.bind_of_error hlevel _, hrefuses⟩
  rw [conclude]
  obtain ⟨bench, lines, hreport⟩ | ⟨bench, reason, hreport, hrefuses⟩ := hreport
  · rw [Action.bind_of_ok hreport, Action.lift_apply]
    exact .inl rfl
  · rw [Action.bind_of_error hreport]
    exact .inr ⟨reason, rfl, hrefuses⟩

/-- At a workbench with readable settings and a known level, a computation ends as on its own, or
in the refusal of the log file. -/
theorem perform_result {w : Workbench α} {s : Settings} (hs : w.Configured s) (hl : w.Levelled s)
    (compute : Int → Run β) :
    (perform compute w).result = (compute s.maxIterations).outcome ∨
      ∃ reason, (perform compute w).result = .error (.unopened reason) ∧ w.Refuses s reason := by
  have hlimit : w.iterationLimit = s.maxIterations := by
    rw [iterationLimit, hs.settingsUnder]
  rw [perform_apply, hlimit]
  split
  · -- the settings may have been read on the way, which is all that changes before the report
    have hknown : ({ w with settings := some s } : Workbench α).Configured s := .inl rfl
    rw [Action.bind_of_ok (getSettings_of_ok hs.settingsUnder)]
    exact conclude_result hknown hl _
  · exact conclude_result hs hl _

/-- An error at such a workbench is one of the computation, or the refusal of the log file. -/
theorem perform_error {w : Workbench α} {s : Settings} (hs : w.Configured s) (hl : w.Levelled s)
    {compute : Int → Run β} {err : Error} (h : (perform compute w).result = .error err) :
    (compute s.maxIterations).outcome = .error err ∨
      ∃ reason, err = .unopened reason ∧ w.Refuses s reason := by
  obtain hresult | ⟨reason, hresult, hrefuses⟩ := perform_result hs hl compute
  · exact .inl (hresult.symm.trans h)
  · exact .inr ⟨reason, Except.error.inj (h.symm.trans hresult), hrefuses⟩

end Workbench

/-! Reading. -/

namespace Parser

open Grammar

variable {α : Type} [Arithmetic α]

/-- A tree has remainders only if it was written with the remainder sign. -/
theorem noRemainder_of_derives {c : Category} {ls : List Lexeme} {e : Expr α}
    (h : Derives c ls e) (hls : Lexeme.symbol .percent ∉ ls) : EveryNode NoRemainder e := by
  refine h.rule (fun _ => everyNode_const.2 (shallow_noRemainder.const _))
    (fun _ _ => everyNode_var.2 ?_) (fun op e he => ?_) fun op a b hop ha hb => ?_
  · simp [NoRemainder, operatorWord?]
  · refine shallow_noRemainder.shape.apply (everyNode_unary.2 ⟨?_, he⟩) he
    cases op <;> simp [NoRemainder, operatorWord?, UnaryOp.word, BinaryOp.word]
  · refine everyNode_binary.2 ⟨?_, ha, hb⟩
    cases op with
    | mod => exact absurd hop hls
    | _ => simp [NoRemainder, operatorWord?, BinaryOp.word]

/-- The errors of reading tokens: those of the documented families, and with a remainder sign among
them that of an infinite dividend. -/
def ReadError (ts : List Token) (err : Error) : Prop :=
  err.family.isAlgebraic = true ∨
    err = .remainderOfInfinity ∧ ∃ t ∈ ts, t.lexeme = .symbol .percent

theorem additive_ends (stop : Nat) {ts us : List Token} (hsub : us ⊆ ts) :
    (Run.lift (additive (α := α) stop us)).Ends
      (fun p => p.rest ⊆ ts ∧
        ((∀ t ∈ ts, t.lexeme ≠ .symbol .percent) → EveryNode NoRemainder p.value))
      (ReadError ts) := by
  have hright : Right .additive [] stop us (plain (additive (α := α) stop us)) := right_additive us
  refine .lift (fun p hp => ?_) (fun err herr => ?_)
  · rw [hp] at hright
    obtain ⟨front, hus, hderives⟩ := hright
    have hmem {t : Token} : t ∈ us ↔ t ∈ front ∨ t ∈ p.rest := by
      rw [← List.mem_append, ← hus]
    refine ⟨fun t ht => hsub (hmem.2 (.inr ht)), fun hnone => noRemainder_of_derives hderives ?_⟩
    intro hpercent
    obtain ⟨t, ht, hlexeme⟩ := List.mem_map.1 hpercent
    exact hnone t (hsub (hmem.2 (.inl ht))) hlexeme
  · rw [herr] at hright
    have hfamily : err.family = .wording := hright.1
    exact .inl (by rw [hfamily]; rfl)

theorem tag_ends (limit : Int) {ts : List Token} {e : Expr α}
    (h : (∀ t ∈ ts, t.lexeme ≠ .symbol .percent) → EveryNode NoRemainder e) :
    (tag limit e).Ends (fun _ => True) (ReadError ts) := by
  unfold tag
  split
  · refine ⟨fun _ _ => trivial, fun err herr => ?_⟩
    obtain herr | ⟨_, _, herr⟩ := Run.outcome_bind_error.1 herr
    · cases (simplifyConfigured_error herr).2 with
      | division => exact .inl rfl
      | modulus => exact .inl rfl
      | remainder hmod =>
          refine .inr ⟨rfl, ?_⟩
          refine Classical.byContradiction fun hnone => hmod (h fun t ht hlexeme => ?_)
          exact hnone ⟨t, ht, hlexeme⟩
    · cases herr
  · exact .pure trivial

omit [Arithmetic α] in
theorem finish_ends (stop : Nat) (e : Expr α) (rest ts : List Token) :
    (Run.lift (finish stop e rest)).Ends (fun _ => True) (ReadError ts) := by
  refine .lift (fun _ _ => trivial) (fun err herr => ?_)
  unfold finish at herr
  split at herr <;> cases herr
  exact .inl rfl

theorem sentence_ends (limit : Int) (tokens : Tokens) :
    (sentence (α := α) (tag limit) tokens).Ends (fun _ => True) (ReadError tokens.list) := by
  refine (additive_ends tokens.stop (List.Subset.refl _)).bind fun left hleft => ?_
  refine (tag_ends limit hleft.2).bind fun a _ => ?_
  split
  · rename_i rest hrest
    split
    · exact .fail (Or.inl rfl)
    · have hsub : rest ⊆ tokens.list := by
        refine List.Subset.trans ?_ hleft.1
        rw [hrest]
        exact List.subset_cons_self _ rest
      refine (additive_ends tokens.stop hsub).bind fun right hright => ?_
      refine (tag_ends limit hright.2).bind fun b _ => ?_
      exact finish_ends _ _ _ _
  · exact finish_ends _ _ _ _

theorem scan_error {skip p : Nat} {cs : List Char} {err : Error}
    (h : Token.scan skip p cs = .error err) : err.family = .wording := by
  fun_induction Token.scan skip p cs with
  | case1 => cases h
  | case2 skip p c cs ih => exact ih h
  | case3 p c cs _ ih => exact ih h
  | case4 p c cs _ _ =>
      cases h
      rfl
  | case5 p c cs _ lexeme k _ ih =>
      obtain h | ⟨_, _, h⟩ := bind_eq_error.1 h
      · exact ih h
      · cases h

/-- Reading a text ends in an error of a documented family, or with the remainder of an infinite
dividend, and then only if the text holds a remainder sign. -/
theorem parse_error {limit : Int} {text : String} {err : Error}
    (h : (Expr.parse limit text : Run (Expr α)).outcome = .error err) :
    err.family.isAlgebraic = true ∨
      err = .remainderOfInfinity ∧ ∃ tokens, Tokens.ofText text = .ok tokens ∧
        ∃ t ∈ tokens.list, t.lexeme = .symbol .percent := by
  obtain h | ⟨tokens, htokens, h⟩ := Run.outcome_bind_error.1 h
  · obtain h | ⟨_, _, h⟩ := bind_eq_error.1 h
    · rw [scan_error h]
      exact .inl rfl
    · cases h
  · obtain halgebraic | ⟨hremainder, hpercent⟩ := (sentence_ends limit tokens).2 err h
    · exact .inl halgebraic
    · exact .inr ⟨hremainder, tokens, htokens, hpercent⟩

end Parser

namespace Workbench

/-- What reaches a caller at a workbench with readable settings and a known level of reports: only
the documented families of errors, and only divisions and remainders by zero from simplification,
but for two others. One is the remainder of an infinite dividend, and only if a remainder was
written; the other is the refusal of a log file that the settings want, and only as long as there is
no logger. -/
theorem errors_documented (w : Workbench Float) {s : Settings} (hs : w.Configured s)
    (hl : w.Levelled s) :
    (∀ text err, (perform (fun limit => (Expr.parse limit text : Run (Expr Float))) w).result =
        .error err →
      err.family.isAlgebraic = true ∨
        (err = .remainderOfInfinity ∧ ∃ tokens, Tokens.ofText text = .ok tokens ∧
          ∃ t ∈ tokens.list, t.lexeme = .symbol .percent) ∨
        ∃ reason, err = .unopened reason ∧ w.Refuses s reason) ∧
    (∀ (e : Expr Float) (limit : Int) err,
        (perform (fun _ => Expr.simplify limit e) w).result = .error err →
      err = .divisionByZero ∨ err = .modulusByZero ∨
        (err = .remainderOfInfinity ∧ e.withOperator "mod" ≠ []) ∨
        ∃ reason, err = .unopened reason ∧ w.Refuses s reason) ∧
    ∀ (r : Relation) (left right : Expr Float) (x : String) (maxDepth : Int) err,
        (perform (fun limit => (Expr.equation r left right).solveFor limit maxDepth x) w).result =
          .error err →
      err.family.isAlgebraic = true ∨
        (err = .remainderOfInfinity ∧ (Expr.equation r left right).withOperator "mod" ≠ []) ∨
        ∃ reason, err = .unopened reason ∧ w.Refuses s reason := by
  refine ⟨fun text err h => ?_, fun e limit err h => ?_, fun r left right x maxDepth err h => ?_⟩
  · obtain h | hrefused := perform_error hs hl h
    · exact (Parser.parse_error h).imp_right .inl
    · exact .inr (.inr hrefused)
  · obtain h | hrefused := perform_error hs hl h
    · cases simplify_error h with
      | division => exact .inl rfl
      | modulus => exact .inr (.inl rfl)
      | remainder hmod => exact .inr (.inr (.inl ⟨rfl, mt withOperator_mod_eq_nil.1 hmod⟩))
    · exact .inr (.inr (.inr hrefused))
  · obtain h | hrefused := perform_error hs hl h
    · obtain halgebraic | ⟨hremainder, hmod⟩ := Solver.solve_error h
      · exact .inl halgebraic
      · exact .inr (.inl ⟨hremainder, mt withOperator_mod_eq_nil.1 hmod⟩)
    · exact .inr (.inr hrefused)

theorem configured_empty : (empty : Workbench Float).Configured {} := .inr ⟨rfl, rfl⟩

theorem levelled_empty : (empty : Workbench Float).Levelled {} := .inr ⟨.minimal, rfl⟩

/-- Without a log file a computation ends as on its own. -/
theorem perform_result_empty {β : Type} (compute : Int → Run β) :
    (perform compute (empty : Workbench Float)).result = (compute 64).outcome := by
  obtain hresult | ⟨_, _, _, path, hpath, _⟩ :=
    perform_result configured_empty levelled_empty compute
  · exact hresult
  · cases hpath

set_option maxRecDepth 8000 in
/-- A workbench on which nothing has been done tells that `x / 0` is a division by zero. -/
theorem errors_documented_quotient :
    let e : Expr Float := .binary .div (.var "x") (.integer 0)
    (perform (fun _ => Expr.simplify 64 e) (empty : Workbench Float)).result =
        .error .divisionByZero ∧
      (Error.divisionByZero = .divisionByZero ∨ Error.divisionByZero = .modulusByZero ∨
        (Error.divisionByZero = .remainderOfInfinity ∧ e.withOperator "mod" ≠ []) ∨
        ∃ reason, Error.divisionByZero = .unopened reason ∧
          (empty : Workbench Float).Refuses {} reason) := by
  intro e
  have herror : (perform (fun _ => Expr.simplify 64 e) (empty : Workbench Float)).result =
      .error .divisionByZero := by
    rw [perform_result_empty]
    rfl
  exact ⟨herror,
    (errors_documented empty configured_empty levelled_empty).2.1 e 64 _ herror⟩

set_option maxRecDepth 8000 in
/-- A log file in a folder that is not there keeps `x + x` from being simplified. -/
example :
    let s : Settings := { logToFile := true, logFile := some "none/x.log" }
    let host : Host := { refusals := [("none/x.log", "No such file or directory")] }
    let bench : Workbench Float :=
      { empty with settings := some s, reporting := { Reporting.start with host := host } }
    let e : Expr Float := .binary .add (.var "x") (.var "x")
    (perform (fun _ => Expr.simplify 64 e) bench).result =
      .error (.unopened "No such file or directory") := rfl

set_option maxRecDepth 8000 in
/-- The product of two large constants is folded to an infinity, and folding its remainder ends in
an error that is not of the documented families. -/
theorem simplify_raises_remainderOfInfinity :
    let e : Expr Float := .binary .mod (.binary .mul (.integer (10 ^ 200)) (.integer (10 ^ 200)))
      (.integer 3)
    (perform (fun _ => Expr.simplify 64 e) (empty : Workbench Float)).result =
        .error .remainderOfInfinity ∧
      Error.remainderOfInfinity.family.isAlgebraic = false := by
  intro e
  refine ⟨?_, rfl⟩
  rw [perform_result_empty]
  rfl

end Workbench

end EquationEngine
