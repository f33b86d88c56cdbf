/-!
# Command line arguments

What the arguments of the command line ask for. Options stand before or behind the name of the
command; a long one may have its value behind `=`, short ones may be joined, and `--` ends them.
The arguments are read from the left, and the first of them that asks for help or for the version,
or that is a misuse, decides.
-/

namespace ScriptLint.Command

/-- An option of the command line. -/
inductive Switch where
  | verbose
  | quiet
  | version
  | help
  | pretty
  | config
  | disable
  | namePattern
deriving DecidableEq, Repr

namespace Switch

/-- The long name of an option. -/
def long : Switch → String
  | .verbose => "verbose"
  | .quiet => "quiet"
  | .version => "version"
  | .help => "help"
  | .pretty => "pretty"
  | .config => "config"
  | .disable => "disable"
  | .namePattern => "name-pattern"

/-- The letter of an option. -/
def short? : Switch → Option Char
  | .verbose => some 'v'
  | .quiet => some 'q'
  | .version => some 'V'
  | .help => some 'h'
  | .pretty => some 'p'
  | .config => some 'c'
  | .disable | .namePattern => none

/-- Whether an option has a value. -/
def takesValue : Switch → Bool
  | .config | .disable | .namePattern => true
  | _ => false

/-- Whether an option may be given more than once. -/
def repeatable : Switch → Bool
  | .verbose | .disable => true
  | _ => false

end Switch

/-- Why reading arguments ends before the arguments do. -/
inductive Halt where
  | help
  | version
  | misuse
deriving DecidableEq, Repr

/-- What may be given at one level of the command line. -/
structure Level where
  switches : List Switch
  /-- Whether a file may be named. -/
  takesFile : Bool := false
  /-- The words that lead to the next level. -/
  words : List String := []

/-- What has been given at one level. -/
structure Given where
  /-- The options with their values, in order; an option without a value has an empty one. -/
  switches : List (Switch × String) := []
  file : Option String := none
deriving DecidableEq, Repr

namespace Given

/-- Whether an option has been given. -/
def has (given : Given) (switch : Switch) : Bool :=
  given.switches.any (·.1 == switch)

/-- The values of an option, in order. -/
def values (given : Given) (switch : Switch) : List String :=
  given.switches.filterMap fun (s, value) => if s = switch then some value else none

/-- What has been given, with one more option. A path is not empty. -/
def take (given : Given) (switch : Switch) (value : String) : Except Halt Given :=
  match switch with
  | .help => .error .help
  | .version => .error .version
  | _ =>
    if given.has switch && !switch.repeatable then .error .misuse
    else if switch = .config ∧ value = "" then .error .misuse
    else .ok { given with switches := given.switches ++ [(switch, value)] }

/-- What has been given, with a file. There is at most one, and its path is not empty. -/
def takeFile (given : Given) (level : Level) (path : String) : Except Halt Given :=
  if level.takesFile && given.file.isNone && path != "" then
    .ok { given with file := some path }
  else .error .misuse

/-- The options that exclude each other are not given together. -/
def validate (given : Given) : Except Halt Unit :=
  if given.has .verbose && given.has .quiet then .error .misuse else .ok ()

end Given

/-- Reads joined letters. The first one that takes a value takes the rest of the letters, or else
the next argument, for which it is given back. -/
def readLetters (level : Level) : List Char → Given → Except Halt (Given × Option Switch)
  | [], given => .ok (given, none)
  | c :: rest, given =>
    match level.switches.find? fun s => s.short? == some c with
    | none => .error .misuse
    | some switch =>
      if switch.takesValue then
        match rest with
        | [] => .ok (given, some switch)
        | '=' :: value => (given.take switch (String.ofList value)).map fun given => (given, none)
        | value => (given.take switch (String.ofList value)).map fun given => (given, none)
      else
        match given.take switch "" with
        | .error halt => .error halt
        | .ok given => readLetters level rest given

/-- Reads a long option, without the hyphens before it. One that takes a value and has none waits
for the next argument. -/
def readLong (level : Level) (text : List Char) (given : Given) :
    Except Halt (Given × Option Switch) :=
  let name := String.ofList (text.takeWhile (· != '='))
  match level.switches.find? (·.long == name), text.dropWhile (· != '=') with
  | none, _ => .error .misuse
  | some switch, [] =>
    if switch.takesValue then .ok (given, some switch)
    else (given.take switch "").map fun given => (given, none)
  | some switch, _ :: value =>
    if switch.takesValue then
      (given.take switch (String.ofList value)).map fun given => (given, none)
    else .error .misuse

/-- What was given at a level, and the word that ended it with the arguments behind it. -/
abbrev LevelResult := Given × Option (String × List String)

/-- Reads the arguments of a level. An option that waits for its value takes the next argument,
unless that is an option itself. -/
def readLevel (level : Level) : (args : List String) → (waiting : Option Switch) → (ended : Bool) →
    Given → Except Halt LevelResult
  | [], none, _, given => .ok (given, none)
  | [], some _, _, _ => .error .misuse
  | arg :: rest, waiting, true, given =>
    match waiting, given.takeFile level arg with
    | none, .ok given => readLevel level rest none true given
    | _, _ => .error .misuse
  | arg :: rest, waiting, false, given =>
    let proceed : Except Halt (Given × Option Switch) → Except Halt LevelResult
      | .ok (given, waiting) => readLevel level rest waiting false given
      | .error halt => .error halt
    match waiting, arg.toList with
    | some _, '-' :: _ :: _ => .error .misuse
    | some switch, _ => proceed ((given.take switch arg).map fun given => (given, none))
    | none, text =>
      if level.words.contains arg then .ok (given, some (arg, rest))
      else
        match text with
        | ['-', '-'] => readLevel level rest none true given
        | '-' :: '-' :: long => proceed (readLong level long given)
        | '-' :: letter :: letters => proceed (readLetters level (letter :: letters) given)
        | _ => proceed ((given.takeFile level arg).map fun given => (given, none))

/-- A check of a script. -/
structure CheckRequest where
  file : Option String
  pretty : Bool
  config : Option String
  disabled : List String
  namePattern : Option String
deriving DecidableEq, Repr

/-- What the command line asks for. -/
inductive Request where
  | check (request : CheckRequest)
  | rules
  | tokens (file : Option String) (pretty : Bool)
deriving DecidableEq, Repr

namespace Request

/-- The paths that a request reads at. -/
def paths : Request → List String
  | .check request => request.config.toList ++ request.file.toList
  | .rules => []
  | .tokens file _ => file.toList

/-- Whether a request reads the standard input. -/
def readsInput : Request → Bool
  | .check request => request.file.isNone
  | .rules => false
  | .tokens file _ => file.isNone

end Request

/-- The options that may be given before and behind the name of the command. -/
def commonSwitches : List Switch := [.verbose, .quiet, .help]

/-- What may be given before the name of the command. -/
def outerLevel : Level where
  switches := .version :: commonSwitches
  words := ["check", "rules", "tokens", "help"]

/-- What may be given behind `check`. -/
def checkLevel : Level where
  switches := [.pretty, .config, .disable, .namePattern] ++ commonSwitches
  takesFile := true

/-- What may be given behind `rules`. -/
def rulesLevel : Level where
  switches := commonSwitches

/-- What may be given behind `tokens`. -/
def tokensLevel : Level where
  switches := .pretty :: commonSwitches
  takesFile := true

/-- Reads the arguments behind the name of a command. -/
def readInner (level : Level) (args : List String) : Except Halt Given := do
  let (given, _) ← readLevel level args none false {}
  given.validate
  return given

/-- The request that a word and the arguments behind it make. -/
def readCommand (word : String) (args : List String) : Except Halt Request :=
  match word with
  | "check" => do
    let given ← readInner checkLevel args
    return .check {
      file := given.file
      pretty := given.has .pretty
      config := (given.values .config).head?
      disabled := given.values .disable
      namePattern := (given.values .namePattern).head? }
  | "rules" => do
    let _ ← readInner rulesLevel args
    return .rules
  | "tokens" => do
    let given ← readInner tokensLevel args
    return .tokens given.file (given.has .pretty)
  | _ =>
    match args with
    | [] => .error .help
    | [word] => .error (if outerLevel.words.contains word then .help else .misuse)
    | _ => .error .misuse

/-- What the arguments ask for. -/
def parse (args : List String) : Except Halt Request := do
  match ← readLevel outerLevel args none false {} with
  | (_, none) => .error .misuse
  | (given, some (word, rest)) =>
    let request ← readCommand word rest
    given.validate
    return request

end ScriptLint.Command
