import ScriptLint.Text.Blank
import ScriptLint.Token.Basic
import ScriptLint.Token.Conversion

/-!
# Segments of a script

`Segment.first?` cuts the first segment off a text: a token without its place, or a gap, which is
text that is no token. A comment or a string that does not close is a gap, and so is a run of
characters that start no token. A segment keeps its characters, so nothing of a script is lost.
-/

namespace ScriptLint

open Text

/-- What a segment is. -/
inductive SegmentClass where
  | token (kind : TokenKind) (value : TokenValue)
  | gap
deriving DecidableEq, Repr

/-- A stretch of text and what it is. -/
structure Segment where
  content : SegmentClass
  text : List Char
deriving DecidableEq, Repr

/-- Whether `c` can start a name or a keyword. -/
def isNameStart (c : Char) : Bool :=
  c.isAlpha || c == '_' || c == '$'

/-- Whether `c` can continue a name or a keyword. -/
def isNamePart (c : Char) : Bool :=
  c.isAlphanum || c == '_' || c == '$'

/-- Whether `c` opens a string. -/
def isQuote (c : Char) : Bool :=
  c == '"' || c == '\''

/-- Whether unrecognised text ends before `c`. -/
def startsToken (c : Char) : Bool :=
  isBlank c || isNamePart c || isQuote c || (Punctuator.longest? [c]).isSome

/-- The text behind the start of a block comment, up to and with its first end, and the rest. -/
def closeComment? : List Char → Option (List Char × List Char)
  | [] => none
  | c :: rest =>
    if c = '*' ∧ rest.head? = some '/' then some (['*', '/'], rest.drop 1)
    else (closeComment? rest).map fun (body, rest) => (c :: body, rest)

/-- The text behind an opening quote. -/
structure Quotation where
  contents : List Char
  /-- Whether the quote that opened the string closes it. -/
  closed : Bool
  rest : List Char
deriving DecidableEq, Repr

/-- Reads the contents of a string up to the quote that closes it, or up to the end of its line.
A backslash takes the next character of the line along, whatever it is. -/
def Quotation.read (quote : Char) : List Char → Quotation
  | [] => ⟨[], false, []⟩
  | c :: rest =>
    if c = quote then ⟨[], true, rest⟩
    else if isLineEnd c then ⟨[], false, c :: rest⟩
    else if c = '\\' then
      match rest with
      | [] => ⟨[c], false, []⟩
      | escaped :: rest =>
        if isLineEnd escaped then ⟨[c], false, escaped :: rest⟩
        else
          let q := Quotation.read quote rest
          ⟨c :: escaped :: q.contents, q.closed, q.rest⟩
    else
      let q := Quotation.read quote rest
      ⟨c :: q.contents, q.closed, q.rest⟩

namespace Segment

/-- A token that carries its own text. -/
def verbatim (kind : TokenKind) (text : List Char) : Segment :=
  ⟨.token kind (.text (String.ofList text)), text⟩

/-- The kind and the value of a word. -/
def classifyWord (word : String) : SegmentClass :=
  if word = "null" then .token .null .null
  else if word = "undefined" then .token .undefined .undefined
  else if word = "true" then .token .boolean (.boolean true)
  else if word = "false" then .token .boolean (.boolean false)
  else
    match Keyword.ofWord? word with
    | some keyword => .token (.keyword keyword) (.keyword word)
    | none => .token .identifier (.identifier word)

/-- A line break; a carriage return takes a line feed along. -/
def lineBreak (c : Char) (rest : List Char) : Segment × List Char :=
  if c = '\r' ∧ rest.head? = some '\n' then (verbatim .lineBreak [c, '\n'], rest.drop 1)
  else (verbatim .lineBreak [c], rest)

/-- White space up to the end of the line or the next token. -/
def blanks (text : List Char) : Segment × List Char :=
  (verbatim .space (text.takeWhile isInlineBlank), text.dropWhile isInlineBlank)

/-- A comment up to the end of the line. -/
def lineComment (text : List Char) : Segment × List Char :=
  (verbatim .comment (text.takeWhile (!isLineEnd ·)), text.dropWhile (!isLineEnd ·))

/-- A block comment; `rest` is the text behind its opening. One that does not close is a gap to
the end of the script. -/
def blockComment (rest : List Char) : Segment × List Char :=
  match closeComment? rest with
  | some (body, rest) => (verbatim .comment ('/' :: '*' :: body), rest)
  | none => (⟨.gap, '/' :: '*' :: rest⟩, [])

/-- A string; `rest` is the text behind the quote. One that does not close is a gap. -/
def quoted (quote : Char) (rest : List Char) : Segment × List Char :=
  let q := Quotation.read quote rest
  if q.closed then
    (⟨.token .string (.text (String.ofList q.contents)), quote :: (q.contents ++ [quote])⟩, q.rest)
  else (⟨.gap, quote :: q.contents⟩, q.rest)

/-- A name, a keyword or one of the words that stand for values. -/
def word (text : List Char) : Segment × List Char :=
  let letters := text.takeWhile isNamePart
  (⟨classifyWord (String.ofList letters), letters⟩, text.dropWhile isNamePart)

/-- A numeric literal. -/
def numeral (text : List Char) : Segment × List Char :=
  let (literal, rest) := Numeral.read text
  (⟨.token .numeric (.number literal.convert), literal.text⟩, rest)

/-- A punctuator, or a gap of text that starts no token. -/
def mark (c : Char) (rest : List Char) : Segment × List Char :=
  match Punctuator.longest? (c :: rest) with
  | some (p, count) =>
    (⟨.token (.punctuator p) .none, (c :: rest).take count⟩, (c :: rest).drop count)
  | none =>
    (⟨.gap, c :: rest.takeWhile (!startsToken ·)⟩, rest.dropWhile (!startsToken ·))

/-- The first segment of the text `c :: rest`, and the text behind it. -/
def cut (c : Char) (rest : List Char) : Segment × List Char :=
  if isLineEnd c then lineBreak c rest
  else if isBlank c then blanks (c :: rest)
  else if c = '/' ∧ rest.head? = some '/' then lineComment (c :: rest)
  else if c = '/' ∧ rest.head? = some '*' then blockComment (rest.drop 1)
  else if isQuote c then quoted c rest
  else if isNameStart c then word (c :: rest)
  else if isDecimalDigit c ∨ (c = '.' ∧ startsWithDigit 10 rest) then numeral (c :: rest)
  else mark c rest

/-- The first segment of a text, and the text behind it. -/
def first? : List Char → Option (Segment × List Char)
  | [] => none
  | c :: rest => some (cut c rest)

end Segment

end ScriptLint
