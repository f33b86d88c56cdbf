import ScriptLint.Grammar.SyntaxError
import ScriptLint.Tree.Node

/-!
# Reading tokens

A parser reads tokens from a cursor and gives a result or a violation, and in both cases the
cursor where it stopped. This module has the parsers that look at one token or take one. A cursor
only knows the token before it and the tokens ahead, so what a parser does cannot depend on
anything earlier.

Parsers see no more of a state than its cursor. So they are written for any state that has one, and
the same grammar can be run on a state that also keeps a count of something.
-/

namespace ScriptLint

/-- A place in a list of tokens. -/
structure Cursor where
  /-- The token before the place. -/
  previous : Option Token
  /-- The tokens behind it. -/
  rest : List Token
deriving DecidableEq, Repr

namespace Cursor

/-- The place before the first of the tokens that take part in the grammar. -/
def ofTokens (tokens : List Token) : Cursor :=
  ⟨none, tokens.filter fun t => !t.isTrivia⟩

/-- Where the token before the place ends. -/
def lastEnd (c : Cursor) : Position :=
  (c.previous.map fun t => t.span.stop).getD .origin

/-- Where the next token starts, or at the end of the tokens where the last one ended. -/
def here (c : Cursor) : Position :=
  (c.rest.head?.map fun t => t.span.start).getD c.lastEnd

/-- Whether the next token starts on a later line than the one on which the token before it ends. -/
def newlineBefore (c : Cursor) : Bool :=
  match c.previous, c.rest with
  | some before, next :: _ => before.span.stop.line < next.span.start.line
  | _, _ => false

/-- The place behind the next token. -/
def advance (c : Cursor) : Cursor :=
  match c.rest with
  | [] => c
  | next :: rest => ⟨some next, rest⟩

/-- The violation that something else stands where `expected` should. -/
def violation (c : Cursor) (expected : String) : SyntaxError :=
  match c.rest with
  | [] => .unexpectedEnd expected
  | next :: _ => .unexpectedToken next.display expected next.span.start

end Cursor

/-- A state from which tokens are read. It has a cursor, which can be moved, and may hold more. -/
class HasCursor (σ : Type) where
  cursor : σ → Cursor
  moveTo : σ → Cursor → σ

instance : HasCursor Cursor := ⟨fun c => c, fun _ c => c⟩

@[simp] theorem HasCursor.cursor_eq (c : Cursor) : cursor c = c := rfl

@[simp] theorem HasCursor.moveTo_eq (c c' : Cursor) : moveTo c c' = c' := rfl

/-- A reader of tokens from states of type `σ`. -/
abbrev ParserOn (σ : Type) := EStateM SyntaxError σ

/-- A reader of tokens. -/
abbrev Parser := ParserOn Cursor

namespace Parser

open HasCursor

variable {σ : Type} [HasCursor σ]

/-- The next token, which stays where it is. -/
def peek? : ParserOn σ (Option Token) := fun s => .ok (cursor s).rest.head? s

/-- The kind of the next token. -/
def peekKind? : ParserOn σ (Option TokenKind) := fun s =>
  .ok ((cursor s).rest.head?.map Token.kind) s

/-- Whether no token is left. -/
def atEnd : ParserOn σ Bool := fun s => .ok (cursor s).rest.isEmpty s

/-- Where the next token starts, or at the end of the tokens where the last one ended. -/
def here : ParserOn σ Position := fun s => .ok (cursor s).here s

/-- Whether a line ends before the next token. -/
def newlineBefore : ParserOn σ Bool := fun s => .ok (cursor s).newlineBefore s

/-- Takes the next token. -/
def advance : ParserOn σ Unit := fun s => .ok () (moveTo s (cursor s).advance)

/-- Fails because something else stands where `expected` should. -/
def unexpected {α : Type} (expected : String) : ParserOn σ α := fun s =>
  .error ((cursor s).violation expected) s

/-- Whether the next token is of the given kind. -/
def check (kind : TokenKind) : ParserOn σ Bool := do
  return (← peekKind?) == some kind

/-- Takes the next token if it is of the given kind. -/
def accept (kind : TokenKind) : ParserOn σ Bool := do
  if ← check kind then
    advance
    return true
  else
    return false

/-- Takes the next token, which must be of the given kind. -/
def expect (kind : TokenKind) (expected : String) : ParserOn σ Unit := do
  if ← accept kind then return ()
  else unexpected expected

/-- Reads `item` behind a token of the given kind, if there is one. -/
def after? {α : Type} (kind : TokenKind) (item : ParserOn σ α) : ParserOn σ (Option α) := do
  if ← accept kind then
    let a ← item
    return some a
  else
    return none

/-- Takes the name of an identifier, if one is next. -/
def name? : ParserOn σ (Option String) := do
  match (← peek?).bind Token.identifier? with
  | some name =>
    advance
    return some name
  | none => return none

/-- Takes the name of an identifier, which must be next. -/
def name (expected : String) : ParserOn σ String := do
  match ← name? with
  | some name => return name
  | none => unexpected expected

/-- Whether a closing brace, the end of the tokens or a line break takes the place of a `;`. -/
def impliedTerminator : ParserOn σ Bool := do
  if ← check (.punctuator .rightCurly) then return true
  else if ← atEnd then return true
  else newlineBefore

/-- Takes the `;` that ends a statement, unless it is implied. -/
def terminator : ParserOn σ Unit := do
  if ← accept (.punctuator .semicolon) then return ()
  else if ← impliedTerminator then return ()
  else unexpected "';'"

/-- A node from `start` to the end of the last token that was taken. -/
def finish (form : Form) (start : Position) (children : List Node) : ParserOn σ Node := fun s =>
  .ok (Node.build form ⟨start, (cursor s).lastEnd⟩ children) s

/-- The node of an expression that is left out, with no width. -/
def emptyExpression : ParserOn σ Node := fun s =>
  .ok (Node.build .emptyExpression ⟨(cursor s).here, (cursor s).here⟩ []) s

/-- Fails unless something can be stored into what `target` denotes. -/
def requireAssignable (target : Node) : ParserOn σ Unit := do
  if target.isAssignable then return ()
  else throw (.invalidAssignmentTarget target.start)

/-- Operators, calls and member accesses make trees tall without nesting, so their height is
bounded on its own. -/
def maxHeight : Nat := 1024

/-- Fails if a tree is too tall. -/
def bounded (n : Node) : ParserOn σ Node := do
  if n.height ≤ maxHeight then return n
  else throw (.nestingTooDeep n.start)

end Parser

end ScriptLint
