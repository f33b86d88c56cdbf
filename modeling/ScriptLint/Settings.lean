import ScriptLint.Json.Reader

/-!
# Settings

Which built-in rules are left out, and the pattern of names that are reported. Settings are read
from JSON: an object with one field for each of the two, or an array with their values in order.
What is not given has its default.
-/

namespace ScriptLint

/-- Why a file or the standard input could not be read. -/
inductive ReadFault where
  | missing
  | directory
  | notDirectory
  | notText
  | other (text : String)
deriving DecidableEq, Repr

/-- A fault as it is reported. -/
def ReadFault.message : ReadFault → String
  | .missing => "No such file or directory (os error 2)"
  | .directory => "Is a directory (os error 21)"
  | .notDirectory => "Not a directory (os error 20)"
  | .notText => "stream did not contain valid UTF-8"
  | .other text => text

/-- What can be set. -/
structure Settings where
  /-- The names of the rules that are left out. -/
  disabledRules : List String := []
  /-- The pattern that takes the place of the default one. -/
  namePattern : Option String := none
deriving DecidableEq, Repr

/-- Why settings are refused. -/
inductive SettingsError where
  /-- The engine of patterns refuses the pattern. -/
  | invalidPattern (pattern reason : String)
  /-- There is no rule of the name. -/
  | unknownRule (name : String)
  /-- The file at `path` cannot be read. -/
  | unreadable (path : String) (fault : ReadFault)
  /-- The text is no JSON, or not of the form of settings. -/
  | malformed (reason : String)
deriving DecidableEq, Repr

/-- A refusal as it is reported. -/
def SettingsError.message : SettingsError → String
  | .invalidPattern pattern reason => "Invalid name pattern '" ++ pattern ++ "': " ++ reason
  | .unknownRule name => "Unknown rule: '" ++ name ++ "'"
  | .unreadable path fault => "Cannot read config file " ++ path ++ ": " ++ fault.message
  | .malformed reason => "Invalid config: " ++ reason

namespace Settings

/-- The string that a JSON value is. -/
def stringOf? : Json → Option String
  | .string s => some s
  | _ => none

/-- The names of rules that a JSON value lists. -/
def disabledRulesOf? : Json → Option (List String)
  | .array items => items.mapM stringOf?
  | _ => none

/-- The pattern that a JSON value gives; `null` gives none. -/
def namePatternOf? : Json → Option (Option String)
  | .null => some none
  | .string s => some (some s)
  | _ => none

/-- The settings with a field of an object taken over. -/
def withField? (settings : Settings) (field : String × Json) : Option Settings :=
  if field.1 = "disabled_rules" then
    (disabledRulesOf? field.2).map fun rules => { settings with disabledRules := rules }
  else if field.1 = "name_pattern" then
    (namePatternOf? field.2).map fun pattern => { settings with namePattern := pattern }
  else none

/-- The settings that a JSON value gives. No field occurs twice. -/
def ofJson? : Json → Option Settings
  | .object fields =>
    if (fields.map Prod.fst).Nodup then fields.foldlM withField? {} else none
  | .array [] => some {}
  | .array [rules] => (disabledRulesOf? rules).map fun rules => ⟨rules, none⟩
  | .array [rules, pattern] => do
    let rules ← disabledRulesOf? rules
    let pattern ← namePatternOf? pattern
    return ⟨rules, pattern⟩
  | _ => none

/-- The settings that a text gives. A text that gives none is refused in the words that `explain`
has for it. -/
def parse (explain : String → String) (source : String) : Except SettingsError Settings :=
  match (Json.parse? source).bind ofJson? with
  | some settings => .ok settings
  | none => .error (.malformed (explain source))

/-- The settings in a file, given what reading the file gave. -/
def ofFile (explain : String → String) (path : String) :
    Except ReadFault String → Except SettingsError Settings
  | .ok source => parse explain source
  | .error fault => .error (.unreadable path fault)

end Settings

end ScriptLint
