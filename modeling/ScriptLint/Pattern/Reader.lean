import ScriptLint.Pattern.Basic
import ScriptLint.Pattern.Engine
import ScriptLint.Token.Numeral

/-!
# Reading regular expressions

`Regex.parse?` reads the text of an expression. The text is read from the front to the back: groups
that are open are kept on a stack, and flags that are set in a group hold to its end. A text is
refused if its brackets do not match, if there is nothing to repeat, if a range or a count runs
backwards, if an escape, a flag or a name is unknown, if it looks around or back, or if it nests
too deeply. Classes that are given by a Unicode name are not known here.

`Regex.engine` is the engine that these expressions make. It is the one that the program is run
with; nothing that is proved about linters depends on it.
-/

namespace ScriptLint

/-- How parts of a pattern are read. -/
structure PatternFlags where
  caseless : Bool := false
  multiLine : Bool := false
  dotAll : Bool := false
  /-- Whether blanks and comments between the parts do not count. -/
  extended : Bool := false
  /-- Whether a carriage return ends a line. -/
  returns : Bool := false
  unicode : Bool := true
deriving DecidableEq, Repr

/-- A part of a pattern that has been read. -/
structure PatternPart where
  regex : Regex
  /-- How deeply the part nests. -/
  depth : Nat
  /-- Whether the part can be repeated; setting a flag cannot. -/
  repeatable : Bool := true
deriving Repr

/-- A group that is being read. -/
structure PatternGroup where
  /-- The alternatives that are complete, the last one first. -/
  alternatives : List PatternPart := []
  /-- The parts of the current alternative, the last one first. -/
  parts : List PatternPart := []
  /-- The flags that hold behind the group. -/
  outerFlags : PatternFlags := {}
deriving Repr

/-- What has been read of a pattern. -/
structure PatternState where
  group : PatternGroup := {}
  /-- The groups around the current one, the innermost first. -/
  enclosing : List PatternGroup := []
  flags : PatternFlags := {}
  /-- The names of groups so far. -/
  names : List (List Char) := []
deriving Repr

/-- What an escape or a plain character stands for. -/
inductive PatternAtom where
  | literal (c : Char)
  | set (chars : CharSet)
  | assertion (condition : Assertion)
deriving Repr

namespace PatternPart

/-- Parts one after the other. -/
def sequence (parts : List PatternPart) : PatternPart :=
  match parts with
  | [] => ⟨.empty, 0, false⟩
  | [part] => part
  | parts =>
    ⟨parts.foldr (fun part rest => .sequence part.regex rest) .empty,
      1 + parts.foldr (fun part deepest => max part.depth deepest) 0, true⟩

/-- A choice between alternatives, of which there is at least one. -/
def choice (first : PatternPart) (others : List PatternPart) : PatternPart :=
  match others with
  | [] => first
  | others =>
    ⟨others.foldl (fun sofar other => .choice sofar other.regex) first.regex,
      1 + (first :: others).foldr (fun part deepest => max part.depth deepest) 0, true⟩

end PatternPart

namespace PatternGroup

/-- The group as one part. -/
def close (g : PatternGroup) : PatternPart :=
  match (.sequence g.parts.reverse :: g.alternatives).reverse with
  | [] => ⟨.empty, 0, false⟩
  | first :: others => .choice first others

end PatternGroup

namespace PatternReader

/-- The text without what does not count at its front; a comment reaches to the end of its line. -/
def skipFrom (flags : PatternFlags) (inComment : Bool) : List Char → List Char
  | [] => []
  | c :: rest =>
    if inComment then skipFrom flags (c != '\n') rest
    else if flags.extended && Text.isBlank c then skipFrom flags false rest
    else if flags.extended && c == '#' then skipFrom flags true rest
    else c :: rest

/-- The text without the blanks and comments at its front that do not count. -/
def skip (flags : PatternFlags) (text : List Char) : List Char := skipFrom flags false text

/-- The first `count` digits in base sixteen. -/
def readHexDigits (flags : PatternFlags) :
    (count : Nat) → List Char → Option (List Char × List Char)
  | 0, text => some ([], text)
  | count + 1, text =>
    match text with
    | c :: rest =>
      if isDigitIn 16 c then
        (readHexDigits flags count (skip flags rest)).map fun (cs, rest) => (c :: cs, rest)
      else none
    | [] => none

/-- The character with the given code. -/
def charOfCode? (code : Nat) : Option Char :=
  if code.isValidChar then some (Char.ofNat code) else none

/-- A character given by its code; the text starts behind the letter that announces it. -/
def readCode (flags : PatternFlags) (count : Nat) (text : List Char) :
    Option (Char × List Char) := do
  let (digits, rest) ←
    match skip flags text with
    | '{' :: rest =>
      let inner := rest.takeWhile (· != '}')
      let digits := if flags.extended then inner.filter (!Text.isBlank ·) else inner
      match rest.dropWhile (· != '}') with
      | _ :: rest =>
        if !digits.isEmpty && digits.all (isDigitIn 16) then some (digits, skip flags rest)
        else none
      | [] => none
    | rest => readHexDigits flags count rest
  let c ← charOfCode? (numberOfDigits 16 digits)
  if !flags.unicode && 0x7f < c.toNat then none else some (c, rest)

/-- Whether a character has a meaning of its own outside brackets. -/
def isMeta (c : Char) : Bool :=
  ['\\', '.', '+', '*', '?', '(', ')', '|', '[', ']', '{', '}', '^', '$', '#', '&', '-',
    '~'].contains c

/-- Whether a backslash may stand before a character that then stands for itself. -/
def isEscapable (c : Char) : Bool :=
  isMeta c || (c.toNat < 0x80 && !c.isAlphanum && c != '<' && c != '>')

/-- The kind of word boundary that a name in braces asks for. A brace without a name is left to be
read as a repetition. -/
def readBoundary (flags : PatternFlags) (text : List Char) :
    Option (Assertion × List Char) :=
  let isNameChar := fun c : Char => c.isAlpha || c == '-'
  match text with
  | '{' :: rest =>
    let inner := skip flags rest
    match inner with
    | [] => none
    | c :: _ =>
      if isNameChar c then
        let rest := inner.dropWhile isNameChar
        let name := String.ofList (inner.takeWhile isNameChar)
        match skip flags rest with
        | '}' :: rest =>
          match name with
          | "start" => some (.wordStart, rest)
          | "end" => some (.wordEnd, rest)
          | "start-half" => some (.wordStartHalf, rest)
          | "end-half" => some (.wordEndHalf, rest)
          | _ => none
        | _ => none
      else some (.wordBoundary, text)
  | _ => some (.wordBoundary, text)

/-- The set or its complement. Without Unicode a complement would match parts of characters. -/
def setOrComplement (flags : PatternFlags) (negated : Bool) (set : CharSet) : Option CharSet :=
  if negated then if flags.unicode then some (.complement set) else none else some set

/-- What an escape stands for; the text starts behind the backslash. -/
def readEscape (flags : PatternFlags) : List Char → Option (PatternAtom × List Char)
  | [] => none
  | c :: rest =>
    let set := fun (negated : Bool) (chars : CharSet) =>
      (setOrComplement flags negated chars).map fun chars => (PatternAtom.set chars, rest)
    match c with
    | 'x' => (readCode flags 2 rest).map fun (c, rest) => (.literal c, rest)
    | 'u' => (readCode flags 4 rest).map fun (c, rest) => (.literal c, rest)
    | 'U' => (readCode flags 8 rest).map fun (c, rest) => (.literal c, rest)
    | 'd' => set false .digits
    | 'D' => set true .digits
    | 's' => set false .blanks
    | 'S' => set true .blanks
    | 'w' => set false .wordParts
    | 'W' => set true .wordParts
    | 'a' => some (.literal '\x07', rest)
    | 'f' => some (.literal '\x0c', rest)
    | 't' => some (.literal '\t', rest)
    | 'n' => some (.literal '\n', rest)
    | 'r' => some (.literal '\r', rest)
    | 'v' => some (.literal '\x0b', rest)
    | 'A' => some (.assertion .textStart, rest)
    | 'z' => some (.assertion .textEnd, rest)
    | 'b' => (readBoundary flags rest).map fun (a, rest) => (.assertion a, rest)
    | 'B' => some (.assertion .noWordBoundary, rest)
    | '<' => some (.assertion .wordStart, rest)
    | '>' => some (.assertion .wordEnd, rest)
    | c => if isEscapable c then some (.literal c, rest) else none

/-- How two operands of a bracket expression are combined. -/
inductive SetOperation where
  | intersection
  | difference
  | symmetricDifference
deriving DecidableEq, Repr

/-- The set under the flags: in either case, if case does not count. It is characters and ranges
that are read so; what is made of them is then the same for both cases, complements too. -/
def withCase (flags : PatternFlags) (set : CharSet) : CharSet :=
  if flags.caseless then .caseless set else set

/-- A set with the operand and the operation that wait before it. -/
def combine (pending : Option (SetOperation × CharSet)) (set : CharSet) : CharSet :=
  match pending with
  | none => set
  | some (.intersection, left) => .intersection left set
  | some (.difference, left) => .difference left set
  | some (.symmetricDifference, left) => .symmetricDifference left set

/-- A class in brackets and colons; the text starts behind its opening bracket. -/
def readBracketName (flags : PatternFlags) (text : List Char) : Option (CharSet × List Char) :=
  match text with
  | ':' :: rest =>
    let negated := rest.head? = some '^'
    let name := if negated then rest.drop 1 else rest
    match name.dropWhile (· != ':') with
    | ':' :: ']' :: rest =>
      (CharSet.ofBracketName? (String.ofList (name.takeWhile (· != ':')))).map fun set =>
        let set := withCase flags set
        (if negated then .complement set else set, rest)
    | _ => none
  | _ => none

/-- A character of a bracket expression, or what an escape stands for in it. -/
def readSetAtom (flags : PatternFlags) : List Char → Option (PatternAtom × List Char)
  | [] => none
  | c :: rest => if c = '\\' then readEscape flags rest else some (.literal c, rest)

/-- A character, a range or a class of a bracket expression. A hyphen stands for itself before the
end of the brackets, and two of them are an operation. -/
def readSetItem (flags : PatternFlags) (text : List Char) : Option (CharSet × List Char) := do
  let (first, rest) ← readSetAtom flags text
  let rest := skip flags rest
  match rest with
  | [] => none
  | c :: behind =>
    let following := (skip flags behind).head?
    if c != '-' || following == some ']' || following == some '-' then
      match first with
      | .literal c => some (withCase flags (.single c), rest)
      | .set chars => some (chars, rest)
      | .assertion _ => none
    else
      let (last, rest) ← readSetAtom flags (skip flags behind)
      match first, last with
      | .literal low, .literal high =>
        if low ≤ high then some (withCase flags (.range low high), rest) else none
      | _, _ => none

/-- The hyphens at the start of a bracket expression, which stand for themselves. -/
def readHyphens (flags : PatternFlags) (sofar : CharSet) : List Char → CharSet × List Char
  | [] => (sofar, [])
  | c :: rest =>
    if c = '-' then readHyphens flags (.union sofar (.single '-')) rest
    else if flags.extended && Text.isBlank c then readHyphens flags sofar rest
    else (sofar, c :: rest)

mutual
/-- A bracket expression; the text starts behind its opening bracket. -/
def readSet (flags : PatternFlags) : (fuel : Nat) → List Char → Option (CharSet × Nat × List Char)
  | 0, _ => none
  | fuel + 1, text =>
    let text := skip flags text
    let negated := text.head? = some '^'
    let text := if negated then skip flags (text.drop 1) else text
    let (hyphens, rest) := readHyphens flags .empty text
    let (start, rest) :=
      match hyphens, rest with
      | .empty, ']' :: rest => (CharSet.single ']', skip flags rest)
      | hyphens, rest => (hyphens, rest)
    match readSetBody flags fuel start none rest with
    | none => none
    | some (set, depth, rest) =>
      (setOrComplement flags negated set).map fun set => (set, depth + 1, rest)
/-- The members and operations of a bracket expression up to its end, and how deeply they nest. -/
def readSetBody (flags : PatternFlags) : (fuel : Nat) → (sofar : CharSet) →
    (pending : Option (SetOperation × CharSet)) → List Char → Option (CharSet × Nat × List Char)
  | 0, _, _, _ => none
  | fuel + 1, sofar, pending, text =>
    match skip flags text with
    | [] => none
    | ']' :: rest => some (combine pending sofar, 1, rest)
    | '&' :: '&' :: rest =>
      readSetBody flags fuel .empty (some (.intersection, combine pending sofar)) rest
    | '-' :: '-' :: rest =>
      readSetBody flags fuel .empty (some (.difference, combine pending sofar)) rest
    | '~' :: '~' :: rest =>
      readSetBody flags fuel .empty (some (.symmetricDifference, combine pending sofar)) rest
    | '[' :: rest =>
      match readBracketName flags rest with
      | some (set, rest) => readSetBody flags fuel (.union sofar set) pending rest
      | none =>
        match readSet flags fuel rest with
        | none => none
        | some (set, depth, rest) =>
          (readSetBody flags fuel (.union sofar set) pending rest).map fun (all, others, rest) =>
            (all, max (depth + 1) others, rest)
    | text =>
      match readSetItem flags text with
      | none => none
      | some (set, rest) => readSetBody flags fuel (.union sofar set) pending rest
end

/-- A count of repetitions with blanks around it. Counts have 32 bits. -/
def readCount (text : List Char) : Option (Option Nat × List Char) :=
  let text := text.dropWhile Text.isBlank
  let digits := text.takeWhile isDecimalDigit
  let rest := (text.dropWhile isDecimalDigit).dropWhile Text.isBlank
  if digits.isEmpty then some (none, rest)
  else
    let n := numberOfDigits 10 digits
    if n < Nat.pow 2 32 then some (some n, rest) else none

/-- The bounds of a repetition; the text starts behind the opening brace. -/
def readBounds (flags : PatternFlags) (text : List Char) :
    Option (Nat × Option Nat × List Char) := do
  let (least, rest) ← readCount (skip flags text)
  let least ← least
  match rest with
  | '}' :: rest => some (least, some least, rest)
  | ',' :: rest =>
    match skip flags rest with
    | '}' :: rest => some (least, none, rest)
    | rest =>
      let (most, rest) ← readCount rest
      let most ← most
      match rest with
      | '}' :: rest => if least ≤ most then some (least, some most, rest) else none
      | _ => none
  | _ => none

/-- The text behind the mark that makes a repetition prefer fewer rounds, which changes nothing for
a search that only asks whether there is a match. -/
def dropLazyMark (text : List Char) : List Char :=
  match text with
  | '?' :: rest => rest
  | rest => rest

/-- Repeats the last part. -/
def repeatLast (state : PatternState) (least : Nat) (most : Option Nat) : Option PatternState :=
  match state.group.parts with
  | [] => none
  | last :: others =>
    if last.repeatable then
      let part : PatternPart := ⟨.repetition last.regex least most, last.depth + 1, true⟩
      some { state with group := { state.group with parts := part :: others } }
    else none

/-- Adds a part to the current alternative. -/
def push (state : PatternState) (part : PatternPart) : PatternState :=
  { state with group := { state.group with parts := part :: state.group.parts } }

/-- Opens a group in which the given flags hold. -/
def openGroup (state : PatternState) (flags : PatternFlags) : PatternState :=
  { state with
    group := { outerFlags := state.flags }
    enclosing := state.group :: state.enclosing
    flags := flags }

/-- Closes the current group. -/
def closeGroup (state : PatternState) : Option PatternState :=
  match state.enclosing with
  | [] => none
  | outer :: enclosing =>
    let body := state.group.close
    let part : PatternPart := ⟨body.regex, body.depth + 1, true⟩
    some { state with
      group := { outer with parts := part :: outer.parts }
      enclosing := enclosing
      flags := state.group.outerFlags }

/-- Starts the next alternative of the current group. -/
def nextAlternative (state : PatternState) : PatternState :=
  let g := state.group
  { state with
    group := { g with alternatives := .sequence g.parts.reverse :: g.alternatives, parts := [] } }

/-- The flags with one of them turned on or off. -/
def setFlag (flags : PatternFlags) (letter : Char) (value : Bool) : Option PatternFlags :=
  match letter with
  | 'i' => some { flags with caseless := value }
  | 'm' => some { flags with multiLine := value }
  | 's' => some { flags with dotAll := value }
  | 'U' => some flags
  | 'u' => some { flags with unicode := value }
  | 'R' => some { flags with returns := value }
  | 'x' => some { flags with extended := value }
  | _ => none

/-- Reads letters of flags up to the mark that ends them, which stays in the text. No letter occurs
twice; a hyphen turns off the flags behind it, of which there is at least one. -/
def readFlags (flags : PatternFlags) (seen : List Char) (value : Bool) :
    List Char → Option (PatternFlags × List Char × List Char)
  | [] => none
  | c :: rest =>
    if c = ':' ∨ c = ')' then
      if seen.head? = some '-' then none else some (flags, seen, c :: rest)
    else if seen.contains c then none
    else if c = '-' then readFlags flags (c :: seen) false rest
    else
      match setFlag flags c value with
      | none => none
      | some flags => readFlags flags (c :: seen) value rest

/-- Whether a character can stand in the name of a group. Beyond ASCII every character can. -/
def isGroupNameChar (first : Bool) (c : Char) : Bool :=
  c == '_' || 0x80 ≤ c.toNat ||
    (if first then c.isAlpha else c.isAlphanum || c == '.' || c == '[' || c == ']')

/-- Opens a group with a name; the text starts behind the angle bracket before the name. -/
def openNamed (state : PatternState) (text : List Char) : Option (PatternState × List Char) :=
  let name := text.takeWhile (· != '>')
  match name, text.dropWhile (· != '>') with
  | first :: others, _ :: rest =>
    if isGroupNameChar true first && others.all (isGroupNameChar false) &&
        !state.names.contains name then
      some (openGroup { state with names := name :: state.names } state.flags, rest)
    else none
  | _, _ => none

/-- Reads the start of a group, or a setting of flags; the text starts behind the opening
parenthesis. -/
def readGroupStart (state : PatternState) (text : List Char) : Option (PatternState × List Char) :=
  match skip state.flags text with
  | '?' :: '=' :: _ | '?' :: '!' :: _ | '?' :: '<' :: '=' :: _ | '?' :: '<' :: '!' :: _ => none
  | '?' :: 'P' :: '<' :: rest => openNamed state rest
  | '?' :: '<' :: rest => openNamed state rest
  | '?' :: rest =>
    match readFlags state.flags [] true rest with
    | some (flags, _, ':' :: rest) => some (openGroup state flags, rest)
    | some (flags, seen, _ :: rest) =>
      if seen.isEmpty then none
      else some ({ push state ⟨.empty, 0, false⟩ with flags := flags }, rest)
    | _ => none
  | rest => some (openGroup state state.flags, rest)

/-- A part that matches one character of a set. -/
def charPart (set : CharSet) (depth : Nat) : PatternPart := ⟨.char set, depth, true⟩

/-- The part that an atom stands for. -/
def atomPart (flags : PatternFlags) : PatternAtom → PatternPart
  | .literal c => charPart (withCase flags (.single c)) 0
  | .set chars => charPart chars 0
  | .assertion condition => ⟨.assertion condition, 0, true⟩

/-- The characters that a dot stands for. Without Unicode it would match parts of characters. -/
def dotSet (flags : PatternFlags) : Option CharSet :=
  if !flags.unicode then none
  else if flags.dotAll then some .any
  else if flags.returns then some (.complement (CharSet.ofChars ['\n', '\r']))
  else some (.complement (.single '\n'))

/-- Reads one part of a pattern, of which `c` is the first character. -/
def readPart (state : PatternState) (c : Char) (rest : List Char) :
    Option (PatternState × List Char) :=
  let flags := state.flags
  let anchor := fun (text : Assertion) (line : Bool → Assertion) =>
    let condition := if flags.multiLine then line flags.returns else text
    some (push state ⟨.assertion condition, 0, true⟩, rest)
  let repeated := fun (least : Nat) (most : Option Nat) =>
    (repeatLast state least most).map fun state => (state, dropLazyMark rest)
  match c with
  | '(' => readGroupStart state rest
  | ')' => (closeGroup state).map fun state => (state, rest)
  | '|' => some (nextAlternative state, rest)
  | '[' =>
    (readSet flags (2 * rest.length + 2) rest).map fun (set, depth, rest) =>
      (push state (charPart set depth), rest)
  | '?' => repeated 0 (some 1)
  | '*' => repeated 0 none
  | '+' => repeated 1 none
  | '{' =>
    match readBounds flags rest with
    | none => none
    | some (least, most, rest) =>
      (repeatLast state least most).map fun state => (state, dropLazyMark (skip flags rest))
  | '.' => (dotSet flags).map fun set => (push state (charPart set 0), rest)
  | '^' => anchor .textStart .lineStart
  | '$' => anchor .textEnd .lineEnd
  | '\\' => (readEscape flags rest).map fun (atom, rest) => (push state (atomPart flags atom), rest)
  | c => some (push state (atomPart flags (.literal c)), rest)

/-- Reads a pattern to its end. Each part takes a character, so their number bounds the rounds. -/
def readAll : (fuel : Nat) → PatternState → List Char → Option PatternState
  | 0, _, _ => none
  | fuel + 1, state, text =>
    match skip state.flags text with
    | [] => some state
    | c :: rest =>
      match readPart state c rest with
      | none => none
      | some (state, rest) => readAll fuel state rest

end PatternReader

/-- How deeply an expression may nest. -/
def Regex.maxDepth : Nat := 250

/-- The expression that a text stands for. -/
def Regex.parse? (source : String) : Option Regex :=
  let text := source.toList
  match PatternReader.readAll (text.length + 1) {} text with
  | none => none
  | some state =>
    let part := state.group.close
    if state.enclosing.isEmpty && part.depth ≤ maxDepth then some part.regex else none

/-- The engine of regular expressions. -/
def Regex.engine : PatternEngine where
  compile source :=
    match Regex.parse? source with
    | some regex => .ok fun name => regex.isMatch name.toList.toArray
    | none => .error "not a regular expression"

end ScriptLint
