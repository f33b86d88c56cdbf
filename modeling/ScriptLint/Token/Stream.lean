import ScriptLint.Token.Lossless

/-!
# The token stream of a script

A `Lexer` walks through a script and gives its tokens one by one, noting the gaps it passes. It
can leave out kinds of tokens when it gives all that remain. Every step takes at least one
character, so the walk ends.
-/

namespace ScriptLint

/-- Text of a script that is no token. -/
structure Gap where
  lexeme : String
  position : Position
deriving DecidableEq, Repr

/-- A place in a script on the way through it. -/
structure Lexer where
  /-- The text ahead. -/
  rest : List Char
  /-- Where the text ahead starts. -/
  position : Position
  /-- The kinds that `tokenize` leaves out. -/
  excluded : List TokenKind
  /-- The gaps passed so far, in the order of the script. -/
  gaps : Array Gap
deriving DecidableEq, Repr

namespace Lexer

/-- A lexer at the start of a script, which leaves out white space. -/
def ofText (text : List Char) : Lexer := ⟨text, .origin, [.space], #[]⟩

/-- A lexer at the start of a script. -/
def ofSource (source : String) : Lexer := ofText source.toList

/-- The same place, with other kinds left out. -/
def excluding (lexer : Lexer) (kinds : List TokenKind) : Lexer :=
  { lexer with excluded := kinds }

/-- The next token of any kind, and the lexer behind it with the gaps on the way. There is none at
the end of the script. -/
def next (lexer : Lexer) : Option Token × Lexer :=
  match _h : Segment.first? lexer.rest with
  | none => (none, lexer)
  | some (segment, rest) =>
    let stop := lexer.position.advance segment.text.length lexer.rest
    match segment.content with
    | .token kind value =>
      (some ⟨kind, value, lexer.position, stop⟩, { lexer with rest, position := stop })
    | .gap =>
      next ⟨rest, stop, lexer.excluded,
        lexer.gaps.push ⟨String.ofList segment.text, lexer.position⟩⟩
termination_by lexer.rest.length
decreasing_by exact Segment.first?_rest_length _h

/-- Every step of a lexer that gives a token leaves less text. -/
theorem next_rest_length {lexer after : Lexer} {token : Token}
    (h : lexer.next = (some token, after)) : after.rest.length < lexer.rest.length := by
  fun_induction next lexer with
  | case1 => simp at h
  | case2 lexer segment rest hfirst stop kind value _ =>
    cases h
    exact Segment.first?_rest_length hfirst
  | case3 lexer segment rest hfirst stop _ ih =>
    have := ih h
    have := Segment.first?_rest_length hfirst
    simp_all
    omega

/-- The tokens that remain, without the kinds that are left out, and the lexer at the end. -/
def tokenize (lexer : Lexer) : List Token × Lexer :=
  match _h : lexer.next with
  | (none, after) => ([], after)
  | (some token, after) =>
    let kept := if after.excluded.contains token.kind then [] else [token]
    let (tokens, finish) := after.tokenize
    (kept ++ tokens, finish)
termination_by lexer.rest.length
decreasing_by exact next_rest_length _h

end Lexer

/-- The tokens of a script without white space. -/
def tokenize (source : String) : List Token :=
  (Lexer.ofSource source).tokenize.1

/-- The tokens of a script without the given kinds. -/
def tokenizeExcluding (source : String) (kinds : List TokenKind) : List Token :=
  ((Lexer.ofSource source).excluding kinds).tokenize.1

end ScriptLint
