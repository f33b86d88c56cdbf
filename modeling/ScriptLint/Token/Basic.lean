import ScriptLint.Number.Layout
import ScriptLint.Source.Position
import ScriptLint.Token.Keyword
import ScriptLint.Token.Punctuator

/-!
# Tokens

A token has a kind, a value and a span. The lexer gives every kind the value that fits it, but
the two are independent: whoever builds tokens by hand may combine them freely, and the grammar
says for each place whether it looks at the kind or at the value.
-/

namespace ScriptLint

/-- What a token is. -/
inductive TokenKind where
  | space
  | lineBreak
  | comment
  | identifier
  | numeric
  | string
  | boolean
  | null
  | undefined
  | keyword (word : Keyword)
  | punctuator (mark : Punctuator)
deriving DecidableEq, Repr

/-- What a token carries. -/
inductive TokenValue where
  | none
  | boolean (value : Bool)
  | number (value : Binary64)
  | text (value : String)
  | identifier (name : String)
  | keyword (word : String)
  | null
  | undefined
deriving DecidableEq, Repr

/-- A unit of a script. -/
structure Token where
  kind : TokenKind
  value : TokenValue
  span : Span
deriving DecidableEq, Repr

namespace TokenKind

/-- White space, line breaks and comments do not take part in the grammar. -/
def isTrivia : TokenKind → Bool
  | .space | .lineBreak | .comment => true
  | _ => false

/-- The fixed spelling of a keyword or a punctuator. -/
def spelling? : TokenKind → Option String
  | .keyword word => some word.word
  | .punctuator mark => some mark.spelling
  | _ => none

end TokenKind

/-- A truth value as scripts write it. -/
def boolWord (value : Bool) : String :=
  if value then "true" else "false"

/-- A value as messages show it. -/
def TokenValue.describe : TokenValue → String
  | .none => ""
  | .boolean value => boolWord value
  | .number value => value.render
  | .text value => "\"" ++ value ++ "\""
  | .identifier name => name
  | .keyword word => word
  | .null => "null"
  | .undefined => "undefined"

namespace Token

/-- Whether the grammar passes over the token. -/
def isTrivia (t : Token) : Bool := t.kind.isTrivia

/-- The name that an identifier token carries. -/
def identifier? (t : Token) : Option String :=
  match t.kind, t.value with
  | .identifier, .identifier name => some name
  | _, _ => none

/-- A token as messages show it. -/
def display (t : Token) : String :=
  match t.kind with
  | .punctuator mark => "'" ++ mark.spelling ++ "'"
  | .lineBreak => "line break"
  | .space => "whitespace"
  | .comment => "comment"
  | _ => "'" ++ t.value.describe ++ "'"

end Token

end ScriptLint
