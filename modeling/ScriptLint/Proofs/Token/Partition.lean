import ScriptLint.Proofs.Token.Conversion
import ScriptLint.Token.Stream

/-!
# A script in pieces

A lexer that is asked for tokens until there is none has gone through the script piece by piece.
`pieces` is the list of these pieces, each with the one token or the one gap that was made of it.
The pieces make up the script, none of them is empty, and a piece can be read off from its token or
gap, but for the spelling of a number (`Piece.Faithful`).

Main statement: `source_partition`. A call of `Lexer.next` takes the pieces up to the first token
(`Lexer.next_pieces`), and by induction on the calls a run takes them all (`Lexer.Pulls.pieces_eq`).
-/

namespace ScriptLint

/-! ## Pieces -/

/-- A stretch of a script and the one token or the one gap that a lexer makes of it. -/
structure Piece where
  text : List Char
  made : Token ⊕ Gap
deriving DecidableEq

namespace Piece

def token? (p : Piece) : Option Token := p.made.getLeft?

def gap? (p : Piece) : Option Gap := p.made.getRight?

end Piece

/-- Whether a token of a kind and with a value can be written as `text`. -/
def TokenKind.Spells (text : List Char) (value : TokenValue) : TokenKind → Prop
  | .space | .lineBreak | .comment => value = .text (String.ofList text)
  | .identifier => value = .identifier (String.ofList text)
  | .keyword word => value = .keyword (String.ofList text) ∧ word.word = String.ofList text
  | .string => ∃ quote contents, isQuote quote = true ∧
      value = .text (String.ofList contents) ∧ text = quote :: (contents ++ [quote])
  | .punctuator mark => value = .none ∧ mark.spelling = String.ofList text
  | .null => value = .null ∧ text = "null".toList
  | .undefined => value = .undefined ∧ text = "undefined".toList
  | .boolean => ∃ truth, value = .boolean truth ∧ text = (boolWord truth).toList
  | .numeric => ∃ numeral : Numeral, value = .number numeral.value ∧ text = numeral.text

/-- The token or the gap of a piece says what the piece is. A gap is its text. -/
def Piece.Faithful (p : Piece) : Prop :=
  match p.made with
  | .inl token => token.kind.Spells p.text token.value
  | .inr gap => gap.lexeme.toList = p.text

/-- The piece that a segment is at its place. -/
def Segment.toPiece (s : Segment) (span : Span) : Piece where
  text := s.text
  made :=
    match s.content with
    | .token kind value => .inl ⟨kind, value, span⟩
    | .gap => .inr ⟨String.ofList s.text, span.start⟩

/-- The pieces of a text that starts at a position. -/
def pieces (position : Position) (text : List Char) : List Piece :=
  match _h : Segment.first? text with
  | none => []
  | some (s, rest) =>
    let stop := position.advance s.text.length text
    s.toPiece ⟨position, stop⟩ :: pieces stop rest
termination_by text.length
decreasing_by exact Segment.first?_rest_length _h

variable {position : Position} {text rest : List Char} {s : Segment}

theorem pieces_of_none (h : Segment.first? text = none) : pieces position text = [] := by
  rw [pieces]
  split
  · rfl
  · next hsome =>
    rw [h] at hsome
    cases hsome

theorem pieces_of_some (h : Segment.first? text = some (s, rest)) :
    pieces position text =
      s.toPiece ⟨position, position.advance s.text.length text⟩ ::
        pieces (position.advance s.text.length text) rest := by
  rw [pieces]
  split
  · next hnone =>
    rw [h] at hnone
    cases hnone
  · next hsome =>
    rw [h] at hsome
    cases hsome
    rfl

theorem first?_append (h : Segment.first? text = some (s, rest)) : s.text ++ rest = text := by
  cases text with
  | nil => cases h
  | cons c text =>
    have happend := Segment.cut_append c text
    rwa [Option.some.inj h] at happend

/-- The pieces of a text make it up. -/
theorem flatMap_pieces (position : Position) (text : List Char) :
    (pieces position text).flatMap Piece.text = text := by
  fun_induction pieces position text with
  | case1 position text hnone =>
    cases text with
    | nil => rfl
    | cons c text => cases hnone
  | case2 position text s rest hsome stop ih =>
    rw [List.flatMap_cons, ih]
    exact first?_append hsome

/-! ## What the pieces are -/

/-- A keyword that a word spells is spelled so. -/
theorem Keyword.word_of_ofWord? {word : String} {keyword : Keyword}
    (h : Keyword.ofWord? word = some keyword) : keyword.word = word := by
  unfold Keyword.ofWord? at h
  have hfound := List.find?_some h
  exact eq_of_beq hfound

namespace Punctuator

theorem spelledBy?_eq_some {count : Nat} {mark : Punctuator}
    (h : spelledBy? text count = some mark) :
    count ≤ text.length ∧ mark.spelling = String.ofList (text.take count) := by
  rw [spelledBy?] at h
  split at h
  · next hlength =>
    unfold ofSpelling? at h
    have hfound := List.find?_some h
    exact ⟨hlength, eq_of_beq hfound⟩
  · cases h

/-- The longest punctuator of a text is one that its first four characters spell. -/
theorem longest?_eq_some {mark : Punctuator} {count : Nat}
    (h : longest? text = some (mark, count)) :
    count ≤ 4 ∧ spelledBy? (text.take 4) count = some mark := by
  obtain ⟨length, hlength, hfound⟩ := List.exists_of_findSome?_eq_some h
  obtain ⟨_, hspelled, heq⟩ := Option.map_eq_some_iff.1 hfound
  cases heq
  simp only [List.mem_cons, List.not_mem_nil, or_false] at hlength
  exact ⟨by omega, hspelled⟩

/-- The longest punctuator of a text is spelled by its first characters. -/
theorem spelling_of_longest? {mark : Punctuator} {count : Nat}
    (h : longest? text = some (mark, count)) :
    mark.spelling = String.ofList (text.take count) := by
  obtain ⟨hwindow, hspelled⟩ := longest?_eq_some h
  have hspelling := (spelledBy?_eq_some hspelled).2
  rwa [List.take_take, Nat.min_eq_left hwindow] at hspelling

end Punctuator

namespace Segment

/-- A segment that is a token can be read off from it. -/
def Spelled (s : Segment) : Prop :=
  ∀ kind value, s.content = .token kind value → kind.Spells s.text value

theorem verbatim_spelled {kind : TokenKind} (text : List Char) (h : kind.isTrivia = true) :
    (verbatim kind text).Spelled := by
  intro _ _ hcontent
  cases hcontent
  cases kind with
  | space => rfl
  | lineBreak => rfl
  | comment => rfl
  | _ => cases h

theorem gap_spelled (text : List Char) : Segment.Spelled ⟨.gap, text⟩ := by
  intro _ _ hcontent
  cases hcontent

theorem lineBreak_spelled (c : Char) (rest : List Char) : (lineBreak c rest).1.Spelled := by
  rw [lineBreak]
  split
  · exact verbatim_spelled _ rfl
  · exact verbatim_spelled _ rfl

theorem blockComment_spelled (rest : List Char) : (blockComment rest).1.Spelled := by
  rw [blockComment]
  split
  · exact verbatim_spelled _ rfl
  · exact gap_spelled _

theorem quoted_spelled {quote : Char} (h : isQuote quote = true) (rest : List Char) :
    (quoted quote rest).1.Spelled := by
  rw [quoted]
  split
  · intro _ _ hcontent
    cases hcontent
    exact ⟨quote, _, h, rfl, rfl⟩
  · exact gap_spelled _

/-- A word is a name, a keyword or a value, and carries what it is. -/
theorem word_spelled (text : List Char) : (word text).1.Spelled := by
  intro kind value h
  have hletters : ∀ {word : String}, String.ofList (text.takeWhile isNamePart) = word →
      text.takeWhile isNamePart = word.toList := by
    rintro _ rfl
    exact String.toList_ofList.symm
  replace h : classifyWord (String.ofList (text.takeWhile isNamePart)) = .token kind value := h
  show kind.Spells (text.takeWhile isNamePart) value
  unfold classifyWord at h
  split at h
  · next hword =>
    cases h
    exact ⟨rfl, hletters hword⟩
  split at h
  · next hword =>
    cases h
    exact ⟨rfl, hletters hword⟩
  split at h
  · next hword =>
    cases h
    exact ⟨true, rfl, hletters hword⟩
  split at h
  · next hword =>
    cases h
    exact ⟨false, rfl, hletters hword⟩
  split at h
  · next keyword hkeyword =>
    cases h
    exact ⟨rfl, Keyword.word_of_ofWord? hkeyword⟩
  · cases h
    rfl

theorem numeral_spelled {c : Char} {rest : List Char}
    (h : isDecimalDigit c ∨ (c = '.' ∧ startsWithDigit 10 rest)) :
    (numeral (c :: rest)).1.Spelled := by
  intro _ _ hcontent
  cases hcontent
  exact ⟨(Numeral.read (c :: rest)).1, congrArg _ (Numeral.read_proper h).convert_eq, rfl⟩

theorem mark_spelled (c : Char) (rest : List Char) : (mark c rest).1.Spelled := by
  rw [mark]
  split
  · next hlongest =>
    intro _ _ hcontent
    cases hcontent
    exact ⟨rfl, Punctuator.spelling_of_longest? hlongest⟩
  · exact gap_spelled _

/-- Every segment that is cut off a text can be read off from its token. -/
theorem cut_spelled (c : Char) (rest : List Char) : (cut c rest).1.Spelled := by
  rw [cut]
  split
  · exact lineBreak_spelled c rest
  split
  · exact verbatim_spelled _ rfl
  split
  · exact verbatim_spelled _ rfl
  split
  · exact blockComment_spelled _
  split
  · next hquote => exact quoted_spelled hquote rest
  split
  · exact word_spelled _
  split
  · next hdigit => exact numeral_spelled hdigit
  · exact mark_spelled c rest

/-- A line feed at the start of a text is a line break. -/
theorem cut_lineFeed (rest : List Char) :
    cut '\n' rest = (verbatim .lineBreak ['\n'], rest) := by
  simp [cut, lineBreak, Text.isLineEnd]

theorem toPiece_faithful {s : Segment} (h : s.Spelled) (span : Span) :
    (s.toPiece span).Faithful := by
  obtain ⟨content, text⟩ := s
  cases content with
  | token kind value => exact h kind value rfl
  | gap => exact String.toList_ofList

end Segment

/-- No piece is empty, and each can be read off from its token or gap. -/
theorem pieces_faithful (position : Position) (text : List Char) :
    ∀ piece ∈ pieces position text, piece.text ≠ [] ∧ piece.Faithful := by
  fun_induction pieces position text with
  | case1 =>
    intro piece hpiece
    cases hpiece
  | case2 position text s rest hsome stop ih =>
    intro piece hpiece
    obtain rfl | hpiece := List.mem_cons.1 hpiece
    · cases text with
      | nil => cases hsome
      | cons c text =>
        have hne := Segment.cut_text_ne_nil c text
        have hspelled := Segment.cut_spelled c text
        rw [Option.some.inj hsome] at hne hspelled
        exact ⟨hne, Segment.toPiece_faithful hspelled _⟩
    · exact ih piece hpiece

/-! ## What a lexer makes of the pieces -/

namespace Lexer

/-- The pieces that lie ahead of a lexer. -/
def pieces (lexer : Lexer) : List Piece := ScriptLint.pieces lexer.position lexer.rest

/-- The gaps that a lexer has passed and those that lie ahead. -/
def allGaps (lexer : Lexer) : List Gap :=
  lexer.gaps.toList ++ lexer.pieces.filterMap Piece.gap?

/-- A call takes the pieces up to the first that is a token, or to the last. It notes the gaps among
them. -/
theorem next_pieces {lexer after : Lexer} {token? : Option Token}
    (h : lexer.next = (token?, after)) :
    lexer.pieces.filterMap Piece.token? =
        token?.toList ++ after.pieces.filterMap Piece.token? ∧
      after.allGaps = lexer.allGaps ∧ (token? = none → after.pieces = []) := by
  fun_induction next lexer with
  | case1 lexer hnone =>
    cases h
    exact ⟨rfl, rfl, fun _ => pieces_of_none hnone⟩
  | case2 lexer segment rest hsome stop kind value hcontent =>
    cases h
    have hpieces : lexer.pieces = segment.toPiece ⟨lexer.position, stop⟩ ::
        ScriptLint.pieces stop rest := pieces_of_some hsome
    have hpiece : segment.toPiece ⟨lexer.position, stop⟩ =
        ⟨segment.text, .inl ⟨kind, value, ⟨lexer.position, stop⟩⟩⟩ := by
      rw [Segment.toPiece, hcontent]
    refine ⟨?_, ?_, by simp⟩
    · rw [hpieces, hpiece]
      rfl
    · rw [allGaps, allGaps, hpieces, hpiece]
      rfl
  | case3 lexer segment rest hsome stop hcontent ih =>
    -- the gap moves from the pieces ahead to the gaps that were passed
    obtain ⟨htokens, hgaps, hend⟩ := ih h
    have hpieces : lexer.pieces = segment.toPiece ⟨lexer.position, stop⟩ ::
        ScriptLint.pieces stop rest := pieces_of_some hsome
    have hpiece : segment.toPiece ⟨lexer.position, stop⟩ =
        ⟨segment.text, .inr ⟨String.ofList segment.text, lexer.position⟩⟩ := by
      rw [Segment.toPiece, hcontent]
    refine ⟨?_, ?_, hend⟩
    · rw [hpieces, hpiece]
      exact htokens
    · rw [hgaps, allGaps, allGaps, hpieces, hpiece, Array.toList_push, List.append_assoc]
      rfl

/-- `lexer.Pulls tokens last` says that calls of `next` give `tokens` until there is none. -/
inductive Pulls : Lexer → List Token → Lexer → Prop where
  | done {lexer last : Lexer} : lexer.next = (none, last) → Pulls lexer [] last
  | more {lexer after last : Lexer} {token : Token} {tokens : List Token} :
      lexer.next = (some token, after) → Pulls after tokens last →
      Pulls lexer (token :: tokens) last

/-- The calls come to an end. -/
theorem exists_pulls (lexer : Lexer) : ∃ tokens last, lexer.Pulls tokens last := by
  cases h : lexer.next with
  | mk token? after =>
    cases token? with
    | none => exact ⟨[], after, .done h⟩
    | some token =>
      obtain ⟨tokens, last, hpulls⟩ := exists_pulls after
      exact ⟨token :: tokens, last, .more h hpulls⟩
termination_by lexer.rest.length
decreasing_by exact next_rest_length h

/-- The calls give the tokens among the pieces and note the gaps among them. -/
theorem Pulls.pieces_eq {lexer last : Lexer} {tokens : List Token} (h : lexer.Pulls tokens last) :
    lexer.pieces.filterMap Piece.token? = tokens ∧ lexer.allGaps = last.gaps.toList := by
  induction h with
  | done h =>
    obtain ⟨htokens, hgaps, hend⟩ := next_pieces h
    rw [htokens, ← hgaps, allGaps, hend rfl]
    exact ⟨rfl, List.append_nil _⟩
  | more h _ ih =>
    obtain ⟨htokens, hgaps, _⟩ := next_pieces h
    rw [htokens, ← hgaps, ih.1]
    exact ⟨rfl, ih.2⟩

theorem next_excluded {lexer after : Lexer} {token? : Option Token}
    (h : lexer.next = (token?, after)) : after.excluded = lexer.excluded := by
  fun_induction next lexer with
  | case1 => cases h; rfl
  | case2 => cases h; rfl
  | case3 _ _ _ _ _ _ ih => exact ih h

/-- What a lexer leaves out are tokens of the kinds that it excludes. -/
theorem tokenize_eq (lexer : Lexer) :
    lexer.tokenize.1 = (lexer.pieces.filterMap Piece.token?).filter fun t =>
      !lexer.excluded.contains t.kind := by
  fun_induction tokenize lexer with
  | case1 lexer after hnext =>
    obtain ⟨htokens, -, hend⟩ := next_pieces hnext
    rw [htokens, hend rfl]
    rfl
  | case2 lexer token after hnext kept tokens finish htokens ih =>
    obtain ⟨hpieces, -, -⟩ := next_pieces hnext
    rw [htokens, next_excluded hnext] at ih
    have hkept : kept = [token].filter fun t => !lexer.excluded.contains t.kind := by
      show (if after.excluded.contains token.kind then [] else [token]) = _
      rw [next_excluded hnext, List.filter]
      cases lexer.excluded.contains token.kind <;> rfl
    rw [hpieces, List.filter_append, ← ih, hkept]
    rfl

/-- At the end a lexer has noted all gaps. -/
theorem tokenize_gaps (lexer : Lexer) : lexer.tokenize.2.gaps.toList = lexer.allGaps := by
  fun_induction tokenize lexer with
  | case1 lexer after hnext =>
    obtain ⟨-, hgaps, hend⟩ := next_pieces hnext
    rw [← hgaps, allGaps, hend rfl]
    exact (List.append_nil _).symm
  | case2 lexer token after hnext kept tokens finish htokens ih =>
    obtain ⟨-, hgaps, -⟩ := next_pieces hnext
    rw [htokens] at ih
    exact ih.trans hgaps

end Lexer

/-- The tokens of a script without some kinds are those of its pieces that are of other kinds. -/
theorem tokenizeExcluding_eq (source : String) (kinds : List TokenKind) :
    tokenizeExcluding source kinds =
      ((pieces .origin source.toList).filterMap Piece.token?).filter fun t =>
        !kinds.contains t.kind :=
  ((Lexer.ofSource source).excluding kinds).tokenize_eq

/-- Calls of `Lexer.next` cut a script into pieces that make it up. None of them is empty, each is
one token or one gap, in order, and what it is made into says what it is. -/
theorem source_partition (source : String) :
    ∃ tokens last, (Lexer.ofSource source).Pulls tokens last ∧
      ∃ pieces : List Piece, pieces.flatMap Piece.text = source.toList ∧
        pieces.filterMap Piece.token? = tokens ∧
        pieces.filterMap Piece.gap? = last.gaps.toList ∧
        ∀ piece ∈ pieces, piece.text ≠ [] ∧ piece.Faithful := by
  obtain ⟨tokens, last, hpulls⟩ := (Lexer.ofSource source).exists_pulls
  obtain ⟨htokens, hgaps⟩ := hpulls.pieces_eq
  exact ⟨tokens, last, hpulls, (Lexer.ofSource source).pieces, flatMap_pieces .origin _, htokens,
    hgaps, pieces_faithful .origin _⟩

end ScriptLint
