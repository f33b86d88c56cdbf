import ScriptLint.Json.Value
import ScriptLint.Token.Basic

/-!
# Reports

An entry of a report holds what one rule found at one node, or says why nothing could be checked.
Reports and token dumps are written as JSON.
-/

namespace ScriptLint

/-- An entry of a report. -/
inductive Report where
  /-- The messages of one rule at one node. -/
  | findings (checker : String) (messages : List String)
  /-- The script could not be checked. -/
  | failure (message : String)
deriving DecidableEq, Repr

/-- A message as an object of its own. -/
def messageJson (message : String) : Json :=
  .object [("message", .string message)]

namespace Report

/-- The name of the rule that an entry comes from. -/
def checker? : Report → Option String
  | .findings checker _ => some checker
  | .failure _ => none

/-- The messages of an entry. -/
def messages : Report → List String
  | .findings _ messages => messages
  | .failure message => [message]

/-- An entry as a JSON value. -/
def toJson : Report → Json
  | .findings checker messages =>
    .object [("checker", .string checker), ("errors", .array (messages.map messageJson))]
  | .failure message => messageJson message

end Report

/-- The text of a report. -/
def renderReports (layout : JsonLayout) (reports : List Report) : String :=
  Json.render layout (.array (reports.map Report.toJson))

/-- A position as a JSON value. -/
def Position.toJson (p : Position) : Json :=
  .object [("line", .integer p.line), ("column", .integer p.column)]

/-- A kind as a JSON value: its name, or for keywords and punctuators an object that says which. -/
def TokenKind.toJson : TokenKind → Json
  | .space => .string "Space"
  | .lineBreak => .string "LineBreak"
  | .comment => .string "Comment"
  | .identifier => .string "Identifier"
  | .numeric => .string "Numeric"
  | .string => .string "String"
  | .boolean => .string "Boolean"
  | .null => .string "Null"
  | .undefined => .string "Undefined"
  | .keyword word => .object [("Keyword", .string word.word)]
  | .punctuator mark => .object [("Punctuator", .string mark.label)]

/-- A value as a JSON value, without what tells a name from a string. -/
def TokenValue.toJson : TokenValue → Json
  | .none | .null | .undefined => .null
  | .boolean value => .bool value
  | .number value => .real value
  | .text value => .string value
  | .identifier name => .string name
  | .keyword word => .string word

/-- A token as a JSON value. -/
def Token.toJson (t : Token) : Json :=
  .object [("kind", t.kind.toJson), ("value", t.value.toJson), ("start", t.span.start.toJson),
    ("end", t.span.stop.toJson)]

/-- The text of a token dump. -/
def renderTokens (layout : JsonLayout) (tokens : List Token) : String :=
  Json.render layout (.array (tokens.map Token.toJson))

end ScriptLint
