import ScriptLint.Grammar.Statement
import ScriptLint.Token.Stream

/-!
# Programs

The grammar as a whole. `nestedWith` ties the productions that open a nesting level to the grammar
with one level less, down to the level where they all fail. A script is a sequence of statements
and function declarations at the outermost level.
-/

namespace ScriptLint

open ScriptLint.Parser HasCursor

namespace Grammar

/-- Statements and expressions may nest this many levels. -/
def maxNesting : Nat := 64

section Parsers

variable {σ : Type} [HasCursor σ]

/-- Fails because no nesting level is left. -/
def tooDeep : ParserOn σ Node := fun s => .error (.nestingTooDeep (cursor s).here) s

/-- A statement or a function declaration of a program, unless the program ends. -/
def programMember (g : NestedOn σ) : ParserOn σ (Option Node) := do
  if ← atEnd then
    return none
  else
    let member ← sourceElement g
    return some member

/-- Where a program starts that reads on from a cursor: at its next token, or at the origin if there
is none. -/
def programStart : ParserOn σ Position := fun s =>
  .ok (((cursor s).rest.head?.map fun t => t.span.start).getD .origin) s

/-- A program, which takes all tokens that are left. -/
def programOf (g : NestedOn σ) : ParserOn σ Node := do
  let start ← programStart
  let body ← collect (programMember g)
  finish .program start body

end Parsers

/-- The productions that open a nesting level, where `levels` of them are left and statements end
with `ending`. -/
def nestedWith (ending : Parser Unit) : (levels : Nat) → Nested
  | 0 =>
    { ending
      statement := tooDeep
      block := tooDeep
      assignment := fun _ => tooDeep
      unary := tooDeep
      construction := tooDeep }
  | levels + 1 =>
    let inner := nestedWith ending levels
    { ending
      statement := statement inner
      block := block inner
      assignment := assignment inner
      unary := unary inner
      construction := construction inner }

/-- The productions of the grammar, where `levels` nesting levels are left. -/
def nested : (levels : Nat) → Nested := nestedWith terminator

/-- The grammar at the outermost level. -/
def outermost : Nested := nested maxNesting

/-- A program of the grammar. -/
def program : Parser Node := programOf outermost

/-- An expression on its own. -/
def topExpression (allowIn : Bool) : Parser Node := expression outermost allowIn

end Grammar

/-- The result of a parser at a cursor, and the cursor where it stopped. -/
def Parser.run {α : Type} (parser : Parser α) (c : Cursor) : Except SyntaxError α × Cursor :=
  match parser c with
  | .ok a c => (.ok a, c)
  | .error e c => (.error e, c)

/-- The tree of a list of tokens. -/
def parseTokens (tokens : List Token) : Except SyntaxError Node :=
  (Grammar.program.run (.ofTokens tokens)).1

/-- The tree of a script. -/
def parse (source : String) : Except SyntaxError Node :=
  parseTokens (tokenize source)

end ScriptLint
