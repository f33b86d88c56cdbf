import ScriptLint.Command.Arguments
import ScriptLint.Linter
import ScriptLint.Rule.Listing

/-!
# Running commands

What the program does with its arguments, its standard input and the files it is pointed to. It
ends with status zero if all is well, with two if a check found something or the arguments make no
sense, and with one if something could not be read or set.
-/

namespace ScriptLint.Command

/-- What surrounds a run of the program: what can be read, and what it leaves to others. -/
structure Environment where
  /-- The text at a path. -/
  textAt : (path : String) → Except ReadFault String
  /-- The standard input; there is none at a terminal. -/
  input : Option (Except ReadFault String)
  /-- What compiles the patterns of names. -/
  engine : PatternEngine
  /-- What is said about a text that gives no settings. -/
  explain : (source : String) → String
  /-- What is said about the arguments if they make no request. -/
  advise : (args : List String) → Halt → String

/-- How a run ends. -/
structure Outcome where
  status : Nat
  output : String
  errors : String
deriving DecidableEq, Repr

/-- Why a command fails. -/
inductive Failure where
  | unreadable (fault : ReadFault)
  | settings (error : SettingsError)
  | noInput
deriving DecidableEq, Repr

/-- A failure as it is reported. -/
def Failure.message : Failure → String
  | .unreadable fault => "IO error: " ++ fault.message
  | .settings error => error.message
  | .noInput => "No input provided. Pass a file or pipe source to stdin."

/-- The layout of JSON that is asked for. -/
def layoutOf (pretty : Bool) : JsonLayout := if pretty then .indented else .compact

/-- The report on a script under settings. -/
def check (engine : PatternEngine) (settings : Settings) (source : String) :
    Except SettingsError (List Report) := do
  let linter ← Linter.ofSettings engine settings
  return linter.analyze source

/-- The token dump of a script. -/
def dumpTokens (layout : JsonLayout) (source : String) : String :=
  renderTokens layout (tokenize source)

/-- The script at a path, or on the standard input if there is no path. -/
def readSource (env : Environment) : Option String → Except Failure String
  | some path => (env.textAt path).mapError .unreadable
  | none =>
    match env.input with
    | some input => input.mapError .unreadable
    | none => .error .noInput

/-- The settings of a check: those of the file, with what the command line adds. -/
def settingsOf (env : Environment) (request : CheckRequest) : Except SettingsError Settings := do
  let settings ←
    match request.config with
    | some path => Settings.ofFile env.explain path (env.textAt path)
    | none => .ok {}
  return {
    disabledRules := settings.disabledRules ++ request.disabled
    namePattern := request.namePattern <|> settings.namePattern }

/-- Runs a check. The settings are read first, then the script, and then the settings are
applied. -/
def runCheck (env : Environment) (request : CheckRequest) : Except Failure Outcome := do
  let settings ← (settingsOf env request).mapError .settings
  let source ← readSource env request.file
  let reports ← (check env.engine settings source).mapError .settings
  return {
    status := if reports.isEmpty then 0 else 2
    output := renderReports (layoutOf request.pretty) reports ++ "\n"
    errors := "" }

/-- Runs a request. -/
def runRequest (env : Environment) : Request → Except Failure Outcome
  | .check request => runCheck env request
  | .rules => .ok ⟨0, renderRuleList ((Rule.builtin env.engine).map Rule.info), ""⟩
  | .tokens file pretty => do
    let source ← readSource env file
    return ⟨0, dumpTokens (layoutOf pretty) source ++ "\n", ""⟩

/-- Runs the program with the given arguments. -/
def run (env : Environment) (args : List String) : Outcome :=
  match parse args with
  | .error .misuse => ⟨2, "", env.advise args .misuse⟩
  | .error halt => ⟨0, env.advise args halt, ""⟩
  | .ok request =>
    match runRequest env request with
    | .ok outcome => outcome
    | .error failure => ⟨1, "", failure.message ++ "\n"⟩

end ScriptLint.Command
