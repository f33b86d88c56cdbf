import ScriptLint.Command.Run
import ScriptLint.Proofs.Linter.Selection
import ScriptLint.Proofs.Settings.Decoding

/-!
# How a check ends

A check reads its settings, then its script, then picks its rules, and then compiles its pattern.
Each of these steps may fail, and the first that does is reported (`CheckRequest.Fails`). A check
that gets through them prints its report, and its status says whether there is anything in it.

Main statement: `check_ends`. The settings that count are those of the file with what the command
line adds (`CheckRequest.adjust`), so a pattern of the file that another one replaces is never
looked at. The engine of patterns and the words for refused texts are part of the environment, and
every statement here is about all environments.
-/

namespace ScriptLint.Command

/-! ## What a check needs -/

namespace CheckRequest

variable (env : Environment) (request : CheckRequest)

/-- The settings of the file, or the default ones if there is no file. -/
def Base (settings : Settings) : Prop :=
  match request.config with
  | none => settings = {}
  | some path => ∃ text, env.textAt path = .ok text ∧ Settings.parse env.explain text = .ok settings

/-- Settings with what the command line adds: further rules are left out, and another pattern takes
the place of the first. -/
def adjust (settings : Settings) : Settings where
  disabledRules := settings.disabledRules ++ request.disabled
  namePattern := if request.namePattern.isSome then request.namePattern else settings.namePattern

/-- The script of a check. -/
def Script (source : String) : Prop :=
  match request.file with
  | none => env.input = some (.ok source)
  | some path => env.textAt path = .ok source

/-- Why the script of a check cannot be read. -/
inductive NoScript : Failure → Prop where
  | file {path : String} {fault : ReadFault} :
      request.file = some path → env.textAt path = .error fault → NoScript (.unreadable fault)
  | input {fault : ReadFault} :
      request.file = none → env.input = some (.error fault) → NoScript (.unreadable fault)
  | terminal : request.file = none → env.input = none → NoScript .noInput

/-- The first step of a check that fails, and why. All steps before it are passed. -/
inductive Fails : Failure → Prop where
  | unreadable {path : String} {fault : ReadFault} :
      request.config = some path → env.textAt path = .error fault →
      Fails (.settings (.unreadable path fault))
  | malformed {path text : String} :
      request.config = some path → env.textAt path = .ok text →
      (∀ settings, Settings.parse env.explain text ≠ .ok settings) →
      Fails (.settings (.malformed (env.explain text)))
  | noScript {settings : Settings} {failure : Failure} :
      request.Base env settings → request.NoScript env failure → Fails failure
  | unknownRule {settings : Settings} {source name : String} :
      request.Base env settings → request.Script env source →
      (request.adjust settings).FirstUnknown env.engine name →
      Fails (.settings (.unknownRule name))
  | invalidPattern {settings : Settings} {source pattern reason : String} :
      request.Base env settings → request.Script env source →
      (request.adjust settings).Known env.engine →
      (request.adjust settings).namePattern = some pattern →
      env.engine.compile pattern = .error reason →
      Fails (.settings (.invalidPattern pattern reason))

end CheckRequest

/-! ## The steps of a check -/

section Steps

variable {env : Environment} {request : CheckRequest}

theorem mapError_eq_ok {ε ε' α : Type} {f : ε → ε'} {x : Except ε α} {a : α} :
    x.mapError f = .ok a ↔ x = .ok a := by
  cases x <;> simp [Except.mapError]

theorem mapError_eq_error {ε ε' α : Type} {f : ε → ε'} {x : Except ε α} {e : ε'} :
    x.mapError f = .error e ↔ ∃ cause, x = .error cause ∧ f cause = e := by
  cases x <;> simp [Except.mapError]

theorem bind_eq_ok {ε α β : Type} {x : Except ε α} {f : α → Except ε β} {b : β} :
    (x >>= f) = .ok b ↔ ∃ a, x = .ok a ∧ f a = .ok b := by
  cases x <;> simp [bind, Except.bind]

theorem bind_eq_error {ε α β : Type} {x : Except ε α} {f : α → Except ε β} {e : ε} :
    (x >>= f) = .error e ↔ x = .error e ∨ ∃ a, x = .ok a ∧ f a = .error e := by
  cases x <;> simp [bind, Except.bind]

/-- The settings that count are those of the file with what the command line adds. -/
theorem settingsOf_eq (env : Environment) (request : CheckRequest) :
    settingsOf env request =
      (match request.config with
        | some path => Settings.ofFile env.explain path (env.textAt path)
        | none => .ok {}).map request.adjust := by
  have hpattern (settings : Settings) : (request.namePattern <|> settings.namePattern) =
      (request.adjust settings).namePattern := by
    rw [CheckRequest.adjust]
    cases request.namePattern <;> rfl
  unfold settingsOf
  simp only [hpattern]
  cases request.config with
  | none => rfl
  | some path => cases Settings.ofFile env.explain path (env.textAt path) <;> rfl

/-- The settings are those of the file, or the default ones if no file is named, with what the
arguments change. -/
theorem settingsOf_eq_ok_iff {settings : Settings} :
    settingsOf env request = .ok settings ↔
      ∃ base, request.Base env base ∧ request.adjust base = settings := by
  rw [settingsOf_eq]
  unfold CheckRequest.Base
  cases request.config with
  | none => simp [Except.map]
  | some path =>
    cases htext : env.textAt path with
    | error fault => simp [htext, Settings.ofFile, Except.map]
    | ok text =>
      cases hparse : Settings.parse env.explain text <;>
        simp [htext, hparse, Settings.ofFile, Except.map]

/-- Settings fail only if a file is named, and then it cannot be read or is not a text of settings.
-/
theorem settingsOf_eq_error_iff {e : SettingsError} :
    settingsOf env request = .error e ↔
      ∃ path, request.config = some path ∧
        ((∃ fault, env.textAt path = .error fault ∧ e = .unreadable path fault) ∨
          ∃ text, env.textAt path = .ok text ∧
            (∀ settings, Settings.parse env.explain text ≠ .ok settings) ∧
            e = .malformed (env.explain text)) := by
  rw [settingsOf_eq]
  cases request.config with
  | none => simp [Except.map]
  | some path =>
    cases htext : env.textAt path with
    | error fault => simp [Settings.ofFile, Except.map, htext, eq_comm]
    | ok text =>
      have hmap : (Settings.parse env.explain text).map request.adjust = .error e ↔
          Settings.parse env.explain text = .error e := by
        cases Settings.parse env.explain text <;> simp [Except.map]
      simp [Settings.ofFile, htext, hmap, Settings.parse_eq_error_iff]

/-- The script is the text of the file, or of the input if no file is named. -/
theorem readSource_eq_ok_iff {source : String} :
    readSource env request.file = .ok source ↔ request.Script env source := by
  rw [CheckRequest.Script]
  cases request.file with
  | some path => exact mapError_eq_ok
  | none =>
    rw [readSource]
    cases env.input with
    | none => simp
    | some input => simp [mapError_eq_ok]

/-- There is no script if the file or the input cannot be read, or if no input was given at all. -/
theorem readSource_eq_error_iff {failure : Failure} :
    readSource env request.file = .error failure ↔ request.NoScript env failure := by
  constructor
  · intro herror
    cases hfile : request.file with
    | some path =>
      rw [hfile, readSource, mapError_eq_error] at herror
      obtain ⟨fault, hfault, rfl⟩ := herror
      exact .file hfile hfault
    | none =>
      rw [hfile, readSource] at herror
      cases hinput : env.input with
      | none =>
        rw [hinput] at herror
        cases herror
        exact .terminal hfile hinput
      | some input =>
        rw [hinput] at herror
        obtain ⟨fault, rfl, rfl⟩ := mapError_eq_error.1 herror
        exact .input hfile hinput
  · intro hfails
    cases hfails with
    | file hfile hfault =>
      rw [hfile, readSource, hfault]
      rfl
    | input hfile hfault =>
      rw [hfile, readSource, hfault]
      rfl
    | terminal hfile hinput => rw [hfile, readSource, hinput]

/-- The report of a check, before it is laid out. -/
def reportsOf (env : Environment) (request : CheckRequest) : Except Failure (List Report) := do
  let settings ← (settingsOf env request).mapError .settings
  let source ← readSource env request.file
  (check env.engine settings source).mapError .settings

/-- A report is made of the script under the adjusted settings. -/
theorem reportsOf_eq_ok_iff {reports : List Report} :
    reportsOf env request = .ok reports ↔
      ∃ base source linter, request.Base env base ∧ request.Script env source ∧
        Linter.ofSettings env.engine (request.adjust base) = .ok linter ∧
        linter.analyze source = reports := by
  simp only [reportsOf, check, bind_eq_ok, mapError_eq_ok, settingsOf_eq_ok_iff,
    readSource_eq_ok_iff, pure, Except.pure, Except.ok.injEq]
  constructor
  · rintro ⟨_, ⟨base, hbase, rfl⟩, source, hsource, linter, hlinter, rfl⟩
    exact ⟨base, source, linter, hbase, hsource, hlinter, rfl⟩
  · rintro ⟨base, source, linter, hbase, hsource, hlinter, rfl⟩
    exact ⟨_, ⟨base, hbase, rfl⟩, source, hsource, linter, hlinter, rfl⟩

/-- There is no report exactly if a step fails, and then for the first that does. -/
theorem reportsOf_eq_error_iff {failure : Failure} :
    reportsOf env request = .error failure ↔ request.Fails env failure := by
  simp only [reportsOf, check, bind_eq_error, mapError_eq_ok, mapError_eq_error,
    settingsOf_eq_ok_iff, settingsOf_eq_error_iff, readSource_eq_ok_iff, readSource_eq_error_iff,
    pure, Except.pure, Linter.ofSettings_eq_error_iff, reduceCtorEq, and_false, exists_false,
    or_false]
  constructor
  · rintro (⟨_, ⟨path, hpath, ⟨fault, hfault, rfl⟩ | ⟨text, htext, hmalformed, rfl⟩⟩, rfl⟩ |
      ⟨_, ⟨base, hbase, rfl⟩, hnone | ⟨source, hsource, _,
        ⟨name, hname, rfl⟩ | ⟨hknown, pattern, reason, ⟨hpattern, hcompile⟩, rfl⟩, rfl⟩⟩)
    · exact .unreadable hpath hfault
    · exact .malformed hpath htext hmalformed
    · exact .noScript hbase hnone
    · exact .unknownRule hbase hsource hname
    · exact .invalidPattern hbase hsource hknown hpattern hcompile
  · intro hfails
    cases hfails with
    | unreadable hpath hfault => exact .inl ⟨_, ⟨_, hpath, .inl ⟨_, hfault, rfl⟩⟩, rfl⟩
    | malformed hpath htext hmalformed =>
      exact .inl ⟨_, ⟨_, hpath, .inr ⟨_, htext, hmalformed, rfl⟩⟩, rfl⟩
    | noScript hbase hnone => exact .inr ⟨_, ⟨_, hbase, rfl⟩, .inl hnone⟩
    | unknownRule hbase hsource hname =>
      exact .inr ⟨_, ⟨_, hbase, rfl⟩, .inr ⟨_, hsource, _, .inl ⟨_, hname, rfl⟩, rfl⟩⟩
    | invalidPattern hbase hsource hknown hpattern hcompile =>
      exact .inr ⟨_, ⟨_, hbase, rfl⟩, .inr ⟨_, hsource, _,
        .inr ⟨hknown, _, _, ⟨hpattern, hcompile⟩, rfl⟩, rfl⟩⟩

end Steps

/-! ## The outcome -/

/-- How a check ends, once its report is made. -/
def outcomeOf (pretty : Bool) (reports : List Report) : Outcome where
  status := if reports.isEmpty then 0 else 2
  output := renderReports (layoutOf pretty) reports ++ "\n"
  errors := ""

/-- The status tells whether anything is reported. -/
theorem status_outcomeOf (pretty : Bool) (reports : List Report) :
    (outcomeOf pretty reports).status = if reports = [] then 0 else 2 := by
  cases reports <;> rfl

/-- Only the report without entries is written as a pair of brackets. -/
theorem renderReports_eq_brackets_iff {layout : JsonLayout} {reports : List Report} :
    renderReports layout reports = "[]" ↔ reports = [] := by
  constructor
  · intro htext
    have hchars : Json.write layout 0 (.array (reports.map Report.toJson)) = ['[', ']'] :=
      String.ofList_injective htext
    cases reports with
    | nil => rfl
    | cons report reports =>
      -- behind the opening bracket stands the start of a line or of an object
      cases layout <;> cases report <;>
        simp [Json.write, JsonLayout.newline, Report.toJson, messageJson] at hchars
  · rintro rfl
    rfl

/-- The output is an empty list just if nothing is reported, in both layouts. -/
theorem outcomeOf_eq_brackets_iff (pretty : Bool) (reports : List Report) :
    (outcomeOf pretty reports).output = "[]\n" ↔ reports = [] := by
  show _ ++ "\n" = "[]" ++ "\n" ↔ _
  rw [String.append_left_inj, renderReports_eq_brackets_iff]

variable {env : Environment} {args : List String} {request : CheckRequest}

/-- A check prints its reports, or fails before it has any. -/
theorem runRequest_check (env : Environment) (request : CheckRequest) :
    runRequest env (.check request) =
      (reportsOf env request).map (outcomeOf request.pretty) := by
  show runCheck env request = _
  rw [runCheck, reportsOf]
  cases settingsOf env request with
  | error e => rfl
  | ok settings =>
    cases readSource env request.file with
    | error failure => rfl
    | ok source =>
      show ((check env.engine settings source).mapError Failure.settings >>= fun _ => _) =
        ((check env.engine settings source).mapError Failure.settings).map _
      cases check env.engine settings source <;> rfl

/-- A check that comes to its reports ends with them. -/
theorem run_of_reports (h : parse args = .ok (.check request)) {reports : List Report}
    (hreports : reportsOf env request = .ok reports) :
    run env args = outcomeOf request.pretty reports := by
  rw [run, h]
  simp only [runRequest_check, hreports, Except.map]

/-- A check that fails before ends with the status 1 and one line about the failure. -/
theorem run_of_failure (h : parse args = .ok (.check request)) {failure : Failure}
    (hfailure : reportsOf env request = .error failure) :
    run env args = ⟨1, "", failure.message ++ "\n"⟩ := by
  rw [run, h]
  simp only [runRequest_check, hfailure, Except.map]

/-- A check ends with status one and prints nothing exactly if one of its steps fails: the settings
cannot be read or decoded, the script cannot be read, a rule that is left out does not exist, or the
pattern is none. The first step that fails is reported. Otherwise the check prints its report under
the settings of the file as the command line adjusts them. Its status is zero if the report is
empty, which can also be seen from what is printed, and two if it is not. How the report is laid out
makes no difference to the status. -/
theorem check_ends (h : parse args = .ok (.check request)) :
    ((run env args).status = 1 ∧ (run env args).output = "" ↔
      ∃ failure, request.Fails env failure) ∧
    (∀ failure, request.Fails env failure ↔ runRequest env (.check request) = .error failure) ∧
    (∀ failure, request.Fails env failure → run env args = ⟨1, "", failure.message ++ "\n"⟩) ∧
    ((¬ ∃ failure, request.Fails env failure) →
      ∃ base source linter, request.Base env base ∧ request.Script env source ∧
        Linter.ofSettings env.engine (request.adjust base) = .ok linter ∧
        (run env args).output =
          renderReports (layoutOf request.pretty) (linter.analyze source) ++ "\n" ∧
        ((run env args).status = 0 ↔ linter.analyze source = []) ∧
        (linter.analyze source = [] ↔ (run env args).output = "[]\n") ∧
        ((run env args).status = 2 ↔ linter.analyze source ≠ [])) ∧
    ∀ pretty args', parse args' = .ok (.check { request with pretty }) →
      (run env args').status = (run env args).status := by
  have hfails_iff (failure : Failure) :
      request.Fails env failure ↔ runRequest env (.check request) = .error failure := by
    rw [runRequest_check, ← reportsOf_eq_error_iff]
    cases reportsOf env request <;> simp [Except.map]
  have hreported (failure : Failure) (hfails : request.Fails env failure) :
      run env args = ⟨1, "", failure.message ++ "\n"⟩ :=
    run_of_failure h (reportsOf_eq_error_iff.2 hfails)
  have hnever (reports : List Report) : (outcomeOf request.pretty reports).status ≠ 1 := by
    rw [status_outcomeOf]
    split <;> decide
  have hone : (run env args).status = 1 ∧ (run env args).output = "" ↔
      ∃ failure, request.Fails env failure := by
    constructor
    · rintro ⟨hstatus, -⟩
      cases hrun : reportsOf env request with
      | error failure => exact ⟨failure, reportsOf_eq_error_iff.1 hrun⟩
      | ok reports =>
        rw [run_of_reports h hrun] at hstatus
        exact absurd hstatus (hnever reports)
    · rintro ⟨failure, hfails⟩
      rw [hreported failure hfails]
      exact ⟨rfl, rfl⟩
  refine ⟨hone, hfails_iff, hreported, ?_⟩
  cases hrun : reportsOf env request with
  | error failure =>
    have hfails := reportsOf_eq_error_iff.1 hrun
    refine ⟨fun hnone => absurd ⟨failure, hfails⟩ hnone, fun pretty args' h' => ?_⟩
    rw [run_of_failure h hrun, run_of_failure h' hrun]
  | ok reports =>
    obtain ⟨base, source, linter, hbase, hsource, hlinter, rfl⟩ := reportsOf_eq_ok_iff.1 hrun
    refine ⟨fun _ => ⟨base, source, linter, hbase, hsource, hlinter, ?_⟩, fun pretty args' h' => ?_⟩
    · rw [run_of_reports h hrun, status_outcomeOf]
      exact ⟨rfl, by simp, (outcomeOf_eq_brackets_iff _ _).symm, by simp⟩
    · rw [run_of_reports h hrun, run_of_reports h' hrun, status_outcomeOf, status_outcomeOf]

/-- The file leaves out no rule and has a pattern that is none, but the command line has another
one. The check gets through and reports the name that the other pattern describes. -/
theorem check_ends_override :
    let env : Environment :=
      { textAt := fun path =>
          if path = "lint.json" then .ok "\x7b\"name_pattern\": \"[\"\x7d" else .error .missing
        input := some (.ok "var tmp;")
        engine := Regex.engine
        explain := fun _ => ""
        advise := fun _ _ => "" }
    let args := ["check", "-p", "--config=lint.json", "--name-pattern", "^tmp",
      "--disable", "Unused identifier"]
    let request : CheckRequest :=
      ⟨none, true, some "lint.json", ["Unused identifier"], some "^tmp"⟩
    (∃ reason, Regex.engine.compile "[" = .error reason) ∧
      request.Base env ⟨[], some "["⟩ ∧
      (run env args).status = 2 ∧ ¬ ∃ failure, request.Fails env failure := by
  intro env args request
  have hargs : parse args = .ok (.check request) := by decide +kernel
  have hstatus : (run env args).status = 2 := by decide +kernel
  have hbracket : Regex.parse? "[" = none := by decide +kernel
  have hrefused : ∃ reason, Regex.engine.compile "[" = .error reason := by
    simp only [Regex.engine, hbracket, Except.error.injEq, exists_eq']
  refine ⟨hrefused, ⟨_, rfl, by decide +kernel⟩, hstatus, ?_⟩
  rw [← (check_ends hargs).1, hstatus]
  exact fun hone => absurd hone.1 (by decide)

end ScriptLint.Command
