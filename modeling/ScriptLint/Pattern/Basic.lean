import ScriptLint.Text.Blank

/-!
# Regular expressions

Expressions for names, and the search for them. Names of scripts are ASCII, so a class of
characters is given by its ASCII members.

The search follows all ways through an expression at once: `Regex.advance` leads from the set of
places where a match may have got to, to the set of places behind the expression.
-/

namespace ScriptLint

/-- A set of characters. -/
inductive CharSet where
  | empty
  | any
  | range (low high : Char)
  /-- Decimal digits. -/
  | digits
  /-- White space. -/
  | blanks
  /-- Letters, digits and the underscore. -/
  | wordParts
  | union (a b : CharSet)
  | intersection (a b : CharSet)
  | complement (a : CharSet)
  /-- The characters of a set in either case. -/
  | caseless (a : CharSet)
deriving DecidableEq, Repr

/-- Whether `c` is a letter, a digit or the underscore. -/
def isWordPart (c : Char) : Bool :=
  c.isAlphanum || c == '_'

/-- The characters that differ from `c` only in case, with `c` itself. Two letters outside ASCII
have an ASCII letter as their other case. -/
def caseVariants (c : Char) : List Char :=
  let others :=
    if c.toLower = 'k' then ['\u212a'] else if c.toLower = 's' then ['\u017f'] else []
  c :: c.toLower :: c.toUpper :: others

namespace CharSet

/-- The set of one character. -/
def single (c : Char) : CharSet := .range c c

/-- The characters of one set that are not in another. -/
def difference (a b : CharSet) : CharSet := .intersection a (.complement b)

/-- The characters that are in one of two sets only. -/
def symmetricDifference (a b : CharSet) : CharSet :=
  .union (difference a b) (difference b a)

/-- The union of several sets. -/
def unionAll (sets : List CharSet) : CharSet := sets.foldr .union .empty

/-- The set of the listed characters. -/
def ofChars (chars : List Char) : CharSet := unionAll (chars.map single)

/-- The capital letters. -/
def upper : CharSet := .range 'A' 'Z'

/-- The small letters. -/
def lower : CharSet := .range 'a' 'z'

/-- The letters. -/
def letters : CharSet := .union upper lower

/-- The ASCII characters. -/
def ascii : CharSet := .range '\x00' '\x7f'

/-- The control characters. -/
def control : CharSet := .union (.range '\x00' '\x1f') (single '\x7f')

/-- The class that a name stands for inside a bracket expression. -/
def ofBracketName? : String → Option CharSet
  | "alnum" => some (.union letters .digits)
  | "alpha" => some letters
  | "ascii" => some ascii
  | "blank" => some (ofChars ['\t', ' '])
  | "cntrl" => some control
  | "digit" => some (.range '0' '9')
  | "graph" => some (.range '!' '~')
  | "lower" => some lower
  | "print" => some (.range ' ' '~')
  | "punct" =>
    some (unionAll [.range '!' '/', .range ':' '@', .range '[' '\x60', .range '\x7b' '~'])
  | "space" => some (.union (.range '\t' '\r') (single ' '))
  | "upper" => some upper
  | "word" => some (unionAll [letters, .range '0' '9', single '_'])
  | "xdigit" => some (unionAll [.range '0' '9', .range 'A' 'F', .range 'a' 'f'])
  | _ => none

/-- Whether a set holds `c`. -/
def contains : CharSet → Char → Bool
  | .empty, _ => false
  | .any, _ => true
  | .range low high, c => low ≤ c && c ≤ high
  | .digits, c => c.isDigit
  | .blanks, c => Text.isBlank c
  | .wordParts, c => isWordPart c
  | .union a b, c => a.contains c || b.contains c
  | .intersection a b, c => a.contains c && b.contains c
  | .complement a, c => !a.contains c
  | .caseless a, c => (caseVariants c).any a.contains

end CharSet

/-- A condition on a place in a text. -/
inductive Assertion where
  | textStart
  | textEnd
  /-- The start of the text or of a line; with `returns` a carriage return ends a line too. -/
  | lineStart (returns : Bool)
  | lineEnd (returns : Bool)
  | wordBoundary
  | noWordBoundary
  | wordStart
  | wordEnd
  | wordStartHalf
  | wordEndHalf
deriving DecidableEq, Repr

/-- Whether an assertion holds between two characters, where a missing one is an end of the text. -/
def Assertion.holds (a : Assertion) (before after : Option Char) : Bool :=
  let wordBefore := before.any isWordPart
  let wordAfter := after.any isWordPart
  match a with
  | .textStart => before.isNone
  | .textEnd => after.isNone
  | .lineStart false => before.all (· == '\n')
  | .lineEnd false => after.all (· == '\n')
  | .lineStart true => before.all fun c => c == '\n' || (c == '\r' && after != some '\n')
  | .lineEnd true => after.all fun c => c == '\r' || (c == '\n' && before != some '\r')
  | .wordBoundary => wordBefore != wordAfter
  | .noWordBoundary => wordBefore == wordAfter
  | .wordStart => !wordBefore && wordAfter
  | .wordEnd => wordBefore && !wordAfter
  | .wordStartHalf => !wordBefore
  | .wordEndHalf => !wordAfter

/-- A regular expression. -/
inductive Regex where
  | empty
  | char (set : CharSet)
  | assertion (condition : Assertion)
  | sequence (first second : Regex)
  | choice (first second : Regex)
  /-- At least `least` and, if there is a bound, at most `most` repetitions. -/
  | repetition (body : Regex) (least : Nat) (most : Option Nat)
deriving DecidableEq, Repr

namespace Regex

/-- One step from each of the places. -/
def round (step : List Nat → List Nat) (places : List Nat) : List Nat :=
  (step places).eraseDups

/-- Exactly `count` steps; once the places stay the same, so they do ever after. -/
def power (step : List Nat → List Nat) : (count : Nat) → List Nat → List Nat
  | 0, places => places
  | count + 1, places =>
    let next := round step places
    if next = places then places else power step count next

/-- At most `count` steps; once no place is new, none will be. -/
def closure (step : List Nat → List Nat) : (count : Nat) → List Nat → List Nat
  | 0, places => places
  | count + 1, places =>
    let next := (places ++ step places).eraseDups
    if next.length = places.length then places else closure step count next

/-- The character before a place of a text. -/
def charBefore? (text : Array Char) (place : Nat) : Option Char :=
  if place = 0 then none else text[place - 1]?

/-- The places that an expression leads to from the given ones. -/
def advance (text : Array Char) : Regex → List Nat → List Nat
  | .empty, places => places
  | .char set, places =>
    places.filterMap fun place =>
      if text[place]?.any set.contains then some (place + 1) else none
  | .assertion condition, places =>
    places.filter fun place => condition.holds (charBefore? text place) text[place]?
  | .sequence first second, places => second.advance text (first.advance text places)
  | .choice first second, places =>
    (first.advance text places ++ second.advance text places).eraseDups
  | .repetition body least most, places =>
    let least' := power (body.advance text) least places
    closure (body.advance text) ((most.map (· - least)).getD (text.size + 1)) least'.eraseDups

/-- Whether an expression matches somewhere in a text. -/
def isMatch (r : Regex) (text : Array Char) : Bool :=
  !(r.advance text (List.range (text.size + 1))).isEmpty

end Regex

end ScriptLint
