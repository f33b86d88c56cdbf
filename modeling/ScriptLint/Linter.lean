import ScriptLint.Grammar.Program
import ScriptLint.Rule.Builtin
import ScriptLint.Settings

/-!
# Checking scripts

A linter is a list of rules. It reads a script, builds its tree and runs the rules. If the script
has no tree, that is the whole report; text that is no token is reported before the findings of
the rules.
-/

namespace ScriptLint

/-- An ordered list of rules. -/
structure Linter where
  rules : List Rule

namespace Linter

/-- The linter with the built-in rules. -/
def builtin (engine : PatternEngine) : Linter := ⟨Rule.builtin engine⟩

/-- Adds a rule, which reports behind the others. -/
def register (linter : Linter) (rule : Rule) : Linter := ⟨linter.rules ++ [rule]⟩

/-- The rules without those that the settings leave out, unless one of these does not exist. -/
def selectRules (rules : List Rule) (disabled : List String) : Except SettingsError (List Rule) :=
  match disabled.find? fun name => !rules.any (·.name == name) with
  | some name => .error (.unknownRule name)
  | none => .ok (rules.filter fun rule => !disabled.contains rule.name)

/-- The rules with another rule in the place of the first one of its name, if there is one. -/
def replaceFirst (new : Rule) : List Rule → List Rule
  | [] => []
  | rule :: rules => if rule.name = new.name then new :: rules else rule :: replaceFirst new rules

/-- The rules with the pattern of the rule about names replaced, if it is among them. -/
def applyPattern (engine : PatternEngine) (rules : List Rule) :
    Option String → Except SettingsError (List Rule)
  | none => .ok rules
  | some source =>
    match engine.pattern source with
    | .error reason => .error (.invalidPattern source reason)
    | .ok pattern => .ok (replaceFirst (.naming pattern) rules)

/-- The linter that settings ask for. An unknown rule is reported before a pattern that is none, and
the pattern is looked at even if its rule is left out. -/
def ofSettings (engine : PatternEngine) (settings : Settings) : Except SettingsError Linter := do
  let rules ← selectRules (Rule.builtin engine) settings.disabledRules
  let rules ← applyPattern engine rules settings.namePattern
  return ⟨rules⟩

/-- The name under which gaps are reported. -/
def gapChecker : String := "Lexical gap"

/-- The message about a gap. -/
def gapMessage (gap : Gap) : String :=
  "Unrecognized input '" ++ gap.lexeme ++ "' at (" ++ gap.position.render ++ ")."

/-- The entry about the gaps of a script, if there are any. -/
def gapReport? : List Gap → Option Report
  | [] => none
  | gaps => some (.findings gapChecker (gaps.map gapMessage))

/-- The report on a script. -/
def analyze (linter : Linter) (source : String) : List Report :=
  let (tokens, lexer) := (Lexer.ofSource source).tokenize
  match parseTokens tokens with
  | .error e => [.failure e.message]
  | .ok root =>
    (gapReport? lexer.gaps.toList).toList ++ runRules root (.ofTree root) linter.rules

end Linter

end ScriptLint
