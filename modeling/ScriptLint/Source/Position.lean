/-!
# Places in a script

A position is a line, counted from one, and a column, counted from zero in characters. A line
ends with a line feed, with a carriage return, or with the two together: the return of such a
pair still belongs to its line and the feed ends it.
-/

namespace ScriptLint

/-- A place between two characters of a script. -/
structure Position where
  line : Nat
  column : Nat
deriving DecidableEq, Repr

namespace Position

/-- The place before the first character. -/
def origin : Position := ⟨1, 0⟩

/-- The place after the character `c`, when `following` is the character that comes next. -/
def next (p : Position) (c : Char) (following : Option Char) : Position :=
  if c = '\n' ∨ (c = '\r' ∧ following ≠ some '\n') then ⟨p.line + 1, 0⟩
  else ⟨p.line, p.column + 1⟩

/-- The place `count` characters into `text`, which starts at `p`. -/
def advance (p : Position) : (count : Nat) → (text : List Char) → Position
  | 0, _ => p
  | _, [] => p
  | count + 1, c :: text => (p.next c text.head?).advance count text

/-- A position as it stands in messages. -/
def render (p : Position) : String :=
  toString p.line ++ ":" ++ toString p.column

end Position

/-- A stretch of a script, from one place to another. -/
structure Span where
  start : Position
  stop : Position
deriving DecidableEq, Repr

end ScriptLint
