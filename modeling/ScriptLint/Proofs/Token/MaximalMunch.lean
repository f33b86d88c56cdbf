import ScriptLint.Proofs.Token.Blanked
import ScriptLint.Proofs.Token.Lexemes

/-!
# Tokens and gaps are as long as they can be

A token is the longest text of its class that stands at its place (`TokenKind.Taken`), and it
carries what this text denotes. A gap has one of three shapes (`GapShape`): a block comment that
does not close, a string that does not close on its line, or a run of characters that start no
token, which goes on for as long as they do.

`Segment.cut` decides by its first characters what it reads. Each of the functions that read a
segment is described once, tokens and gaps together (`Segment.cut_described`), and the pieces of a
script are such segments (`described_of_pieces`).

Main statements: `tokens_are_longest`, `gaps_are_shaped` and, on the table of punctuators alone,
`Punctuator.longest_is_maximal`.
-/

namespace ScriptLint

open Text

/-! ## Classes of tokens -/

/-- A comment of either kind. -/
def IsComment (w : List Char) : Prop := IsLineComment w ∨ IsBlockComment w

/-- The texts that tokens of a kind are among. Keywords and the words for values are names. -/
def TokenKind.Lexeme : TokenKind → List Char → Prop
  | .space => IsBlankRun
  | .lineBreak => IsLineBreak
  | .comment => IsComment
  | .identifier | .boolean | .null | .undefined | .keyword _ => IsName
  | .numeric => IsNumber
  | .string => IsQuoted
  | .punctuator _ => IsMark

/-- A keyword or a word for a value. -/
def IsReserved (w : List Char) : Prop :=
  String.ofList w ∈ ["null", "undefined", "true", "false"] ∨
    ∃ keyword : Keyword, keyword.word = String.ofList w

/-- What is known of a token by its kind: `w` is the longest text of its class before `rest`. Which
keyword or value a word is, its spelling says; an identifier is none of them. The value of a number
is the one that the text denotes, however it is taken apart. -/
structure TokenKind.Taken (kind : TokenKind) (value : TokenValue) (w rest : List Char) : Prop where
  longest : Longest kind.Lexeme w rest
  unreserved : kind = .identifier → ¬ IsReserved w
  number : kind = .numeric → ∀ n : Numeral, n.Proper → n.text = w → value = .number n.value

/-! ## Shapes of gaps -/

/-- A block comment that does not close before the end of the script. -/
def IsUnclosedComment (w rest : List Char) : Prop :=
  ∃ body, w = '/' :: '*' :: body ∧ ¬ ['*', '/'] <:+: body ∧ rest = []

/-- A string that does not close before the end of its line. -/
def IsUnclosedString (w rest : List Char) : Prop :=
  ∃ quote text, w = quote :: text ∧ isQuote quote = true ∧
    (∀ contents, IsContents quote contents → ¬ contents ++ [quote] <+: text) ∧
    (∀ c ∈ text, isLineEnd c = false) ∧ ∀ c ∈ rest.head?, isLineEnd c = true

/-- A character that stands in white space or a name, or that starts a string or a punctuator. -/
def IsRecognized (c : Char) : Prop :=
  isBlank c = true ∨ (IsNameLetter c ∨ ('0' ≤ c ∧ c ≤ '9')) ∨ isQuote c = true ∨
    ∃ p : Punctuator, p.spelling.toList.head? = some c

/-- A run of other characters, up to the next that is recognised. -/
def IsUnrecognized (w rest : List Char) : Prop :=
  w ≠ [] ∧ (∀ c ∈ w, ¬ IsRecognized c) ∧ ∀ c ∈ rest.head?, IsRecognized c

/-- What a gap before `rest` can be. -/
def GapShape (w rest : List Char) : Prop :=
  IsUnclosedComment w rest ∨ IsUnclosedString w rest ∨ IsUnrecognized w rest

theorem Keyword.mem_all (keyword : Keyword) : keyword ∈ all := by cases keyword <;> decide

/-- A word that is no keyword is spelled like none. -/
theorem Keyword.word_ne_of_ofWord? {word : String} (h : ofWord? word = none) (keyword : Keyword) :
    keyword.word ≠ word := by
  have hne := List.find?_eq_none.1 h keyword keyword.mem_all
  simpa using hne

/-- The decimal digits are those from `0` to `9`. -/
theorem isDecimalDigit_iff {c : Char} : isDecimalDigit c = true ↔ '0' ≤ c ∧ c ≤ '9' := by
  rw [isDecimalDigit, isDigitIn, decide_eq_true_eq, digitValue]
  split
  · next h =>
    have hle : c.toNat ≤ 57 := UInt32.le_iff_toNat_le.1 h.2
    exact iff_of_true (by show c.toNat - 48 < 10; omega) h
  · next h =>
    refine iff_of_false ?_ h
    split
    · omega
    · split <;> omega

/-- The first character of a punctuator is a punctuator. -/
theorem Punctuator.exists_first (p : Punctuator) :
    ∃ q : Punctuator, q.spelling.toList = p.spelling.toList.take 1 := by
  have hany : all.any (fun q => q.spelling.toList = p.spelling.toList.take 1) = true := by
    cases p <;> decide
  obtain ⟨q, -, hq⟩ := List.any_eq_true.1 hany
  exact ⟨q, of_decide_eq_true hq⟩

/-- A text that starts with a character of a punctuator starts with a punctuator. -/
theorem Punctuator.longest?_isSome_iff {c : Char} (rest : List Char) :
    (longest? (c :: rest)).isSome = true ↔ ∃ p : Punctuator, p.spelling.toList.head? = some c := by
  refine ⟨fun h => ?_, fun ⟨p, hp⟩ => ?_⟩
  · obtain ⟨⟨p, count⟩, hfound⟩ := Option.isSome_iff_exists.1 h
    refine ⟨p, ?_⟩
    rw [spelling_of_longest? hfound, String.toList_ofList, List.head?_take,
      if_neg (Nat.pos_iff_ne_zero.1 (longest?_pos hfound)), List.head?_cons]
  · obtain ⟨q, hq⟩ := p.exists_first
    obtain ⟨tail, htail⟩ := List.head?_eq_some_iff.1 hp
    rw [htail] at hq
    exact longest?_isSome (p := q) (by rw [hq]; exact ⟨rest, rfl⟩)

/-- The test by which gaps end is the list of characters with which a token can start. -/
theorem startsToken_iff {c : Char} : startsToken c = true ↔ IsRecognized c := by
  simp only [startsToken, Bool.or_eq_true, Punctuator.longest?_isSome_iff, isNamePart_iff,
    IsRecognized, or_assoc]

/-! ## Segments -/

/-- For tokens other than names and numbers the longest text of their kind is all there is to say.
-/
theorem TokenKind.Taken.of_longest {kind : TokenKind} {value : TokenValue} {w rest : List Char}
    (h : Longest kind.Lexeme w rest) (hidentifier : kind ≠ .identifier)
    (hnumeric : kind ≠ .numeric) : kind.Taken value w rest where
  longest := h
  unreserved := fun heq => absurd heq hidentifier
  number := fun heq => absurd heq hnumeric

namespace Segment

/-- A segment before `rest` is a token that is taken there, or it has the shape of a gap. -/
def Described (s : Segment) (rest : List Char) : Prop :=
  match s.content with
  | .token kind value => kind.Taken value s.text rest
  | .gap => GapShape s.text rest

/-- White space and comments carry their text as it is. -/
theorem verbatim_described {kind : TokenKind} (hkind : kind.isTrivia = true) {w rest : List Char}
    (h : Longest kind.Lexeme w rest) : (verbatim kind w).Described rest := by
  refine .of_longest h ?_ ?_
  · rintro rfl
    cases hkind
  · rintro rfl
    cases hkind

/-- A line break is as long as it can be: a carriage return takes a line feed with it. -/
theorem lineBreak_described {c : Char} (h : isLineEnd c = true) (rest : List Char) :
    (lineBreak c rest).1.Described (lineBreak c rest).2 := by
  have hverbatim : (lineBreak c rest).1 = verbatim .lineBreak (lineBreak c rest).1.text := by
    rw [lineBreak]
    split <;> rfl
  rw [hverbatim]
  exact verbatim_described rfl (lineBreak_longest h rest)

/-- A line comment goes up to the end of its line. -/
theorem lineComment_described {rest : List Char} (h : rest.head? = some '/') :
    (lineComment ('/' :: rest)).1.Described (lineComment ('/' :: rest)).2 := by
  refine verbatim_described rfl ((lineComment_longest h).or_left ?_)
  rintro _ ⟨body, -, rfl⟩ hprefix
  have htext : (lineComment ('/' :: rest)).1.text ++ (lineComment ('/' :: rest)).2 = '/' :: rest :=
    List.takeWhile_append_dropWhile
  rw [htext] at hprefix
  have hopen : ['/', '*'] <+: '/' :: rest := (List.prefix_append ['/', '*'] _).trans hprefix
  have hstar := (pair_prefix_iff.1 hopen).2
  rw [h] at hstar
  exact absurd hstar (by decide)

/-- A comment goes up to the first end of a comment, and without one it is a gap. -/
theorem blockComment_described (rest : List Char) :
    (blockComment rest).1.Described (blockComment rest).2 := by
  rw [blockComment]
  split
  · next close after hclose =>
    refine verbatim_described rfl ((blockComment_longest hclose).or_right ?_)
    rintro v ⟨hopen, -⟩ hprefix
    have hslash := (pair_prefix_iff.1 (hopen.trans hprefix)).2
    exact absurd (Option.some.inj hslash) (by decide)
  · next hclose => exact .inl ⟨rest, rfl, closeComment?_eq_none hclose, rfl⟩

/-- A string goes up to its quote, and without one it is a gap. -/
theorem quoted_described {quote : Char} (h : isQuote quote = true) (rest : List Char) :
    (quoted quote rest).1.Described (quoted quote rest).2 := by
  by_cases hclosed : (Quotation.read quote rest).closed = true
  · have hlongest := quoted_longest h hclosed
    rw [quoted, if_pos hclosed] at hlongest ⊢
    exact .of_longest hlongest (by simp) (by simp)
  · rw [quoted, if_neg hclosed]
    have hopen := Bool.eq_false_iff.2 hclosed
    refine .inr (.inl ⟨quote, _, rfl, h, fun contents hcontents hprefix => hclosed ?_,
      Quotation.isLineEnd_of_mem_contents, Quotation.isLineEnd_of_not_closed hopen⟩)
    -- a quote that closes the string within the gap would have been found
    obtain ⟨tail, htail⟩ := hprefix
    have hread := Quotation.read_append quote rest
    rw [hopen, ← htail] at hread
    have htext : contents ++ quote :: (tail ++ (Quotation.read quote rest).rest) = rest := by
      simpa using hread
    have hagain := Quotation.read_of_contents h hcontents
      (tail ++ (Quotation.read quote rest).rest)
    rw [htext] at hagain
    rw [hagain]

/-- A word is a token of a kind whose texts are names, and a name only if it is not reserved. -/
theorem classifyWord_taken (w : List Char) :
    ∃ kind value, classifyWord (String.ofList w) = .token kind value ∧ kind.Lexeme = IsName ∧
      kind ≠ .numeric ∧ (kind = .identifier → ¬ IsReserved w) := by
  rw [classifyWord]
  split
  · exact ⟨_, _, rfl, rfl, by decide, by rintro ⟨⟩⟩
  split
  · exact ⟨_, _, rfl, rfl, by decide, by rintro ⟨⟩⟩
  split
  · exact ⟨_, _, rfl, rfl, by decide, by rintro ⟨⟩⟩
  split
  · exact ⟨_, _, rfl, rfl, by decide, by rintro ⟨⟩⟩
  split
  · exact ⟨_, _, rfl, rfl, by simp, by rintro ⟨⟩⟩
  next hnull hundefined htrue hfalse _ hkeyword =>
  refine ⟨_, _, rfl, rfl, by decide, fun _ hreserved => ?_⟩
  obtain hvalue | ⟨keyword, hword⟩ := hreserved
  · simp [hnull, hundefined, htrue, hfalse] at hvalue
  · exact Keyword.word_ne_of_ofWord? hkeyword keyword hword

/-- A name goes on as long as it can, and is a keyword if it is spelled like one. -/
theorem word_described {c : Char} (h : isNameStart c = true) (rest : List Char) :
    (word (c :: rest)).1.Described (word (c :: rest)).2 := by
  obtain ⟨kind, value, hcontent, hlexeme, hnumeric, hreserved⟩ :=
    classifyWord_taken (word (c :: rest)).1.text
  have hlongest := word_longest h rest
  rw [← hlexeme] at hlongest
  rw [Described, show (word (c :: rest)).1.content = .token kind value from hcontent]
  exact ⟨hlongest, hreserved, fun heq => absurd heq hnumeric⟩

/-- A number is the longest one that starts there. -/
theorem numeral_described {c : Char} {rest : List Char}
    (h : isDecimalDigit c ∨ (c = '.' ∧ startsWithDigit 10 rest)) :
    (numeral (c :: rest)).1.Described (numeral (c :: rest)).2 := by
  refine ⟨numeral_longest h, by rintro ⟨⟩, fun _ n hn htext => ?_⟩
  -- the text writes one proper numeral only
  have hread := hn.read_text
  rw [htext] at hread
  have hsame := hread.symm.trans (Numeral.read_proper h).read_text
  rw [(Prod.mk.inj hsame).1]
  exact congrArg _ (Numeral.read_proper h).convert_eq

/-- A run of characters that start no token goes on as long as they do. -/
theorem isUnrecognized_run {c : Char} (h : ¬ IsRecognized c) (rest : List Char) :
    IsUnrecognized (c :: rest.takeWhile (!startsToken ·)) (rest.dropWhile (!startsToken ·)) := by
  refine ⟨List.cons_ne_nil _ _, List.forall_mem_cons.2 ⟨h, fun d hd => ?_⟩, fun d hd => ?_⟩
  · have hd := List.mem_takeWhile_imp hd
    rw [← startsToken_iff]
    simpa using hd
  · have hnot := List.head?_dropWhile_not (!startsToken ·) rest
    rw [Option.mem_def.1 hd] at hnot
    rw [← startsToken_iff]
    simpa using hnot

/-- A punctuator is the longest one that starts there, and where none does there is a gap. -/
theorem mark_described {c : Char} (hblank : ¬ isBlank c = true) (hquote : ¬ isQuote c = true)
    (hname : ¬ isNameStart c = true) (hdigit : ¬ isDecimalDigit c = true) (rest : List Char) :
    (mark c rest).1.Described (mark c rest).2 := by
  rw [mark]
  split
  · next hfound => exact .of_longest (mark_longest hfound) (by simp) (by simp)
  · next hnone =>
    refine .inr (.inr (isUnrecognized_run ?_ rest))
    rintro (h | (h | h) | h | h)
    · exact hblank h
    · exact hname (isNameStart_iff.2 h)
    · exact hdigit (isDecimalDigit_iff.2 h)
    · exact hquote h
    · have hsome := (Punctuator.longest?_isSome_iff rest).2 h
      rw [hnone] at hsome
      cases hsome

/-- Every segment that is cut off a text is described. -/
theorem cut_described (c : Char) (rest : List Char) :
    (cut c rest).1.Described (cut c rest).2 := by
  rw [cut]
  split
  · next hend => exact lineBreak_described hend rest
  next hend =>
  split
  · next hblank =>
    have hinline : isInlineBlank c = true := by simp [isInlineBlank, hblank, hend]
    exact verbatim_described rfl (blanks_longest hinline rest)
  next hblank =>
  split
  · next hslash =>
    obtain ⟨rfl, hhead⟩ := hslash
    exact lineComment_described hhead
  split
  · exact blockComment_described _
  split
  · next hquote => exact quoted_described hquote rest
  next hquote =>
  split
  · next hname => exact word_described hname rest
  next hname =>
  split
  · next hdigit => exact numeral_described hdigit
  · next hdigit => exact mark_described hblank hquote hname (fun h => hdigit (.inl h)) rest

end Segment

/-! ## Pieces -/

section Pieces

variable {position : Position} {text : List Char} {before after : List Piece} {p : Piece}

/-- A piece is made of the first segment of the text that it and the pieces behind it make up. -/
theorem first?_of_pieces (h : pieces position text = before ++ p :: after) :
    ∃ s span, p = s.toPiece span ∧
      Segment.first? (p.text ++ after.flatMap Piece.text) =
        some (s, after.flatMap Piece.text) := by
  induction before generalizing position text with
  | nil =>
    obtain ⟨s, rest, hfirst, hp, hafter⟩ := pieces_eq_cons h
    have hrest : after.flatMap Piece.text = rest := by rw [hafter, flatMap_pieces]
    have htext : p.text = s.text := by rw [hp, Segment.toPiece]
    refine ⟨s, _, hp, ?_⟩
    rw [hrest, htext, first?_append hfirst, hfirst]
  | cons q before ih =>
    obtain ⟨s, rest, -, -, htail⟩ := pieces_eq_cons h
    exact ih htail.symm

/-- Every piece of a script is described by the text behind it. -/
theorem described_of_pieces (h : pieces position text = before ++ p :: after) :
    ∃ s span, p = Segment.toPiece s span ∧ s.Described (after.flatMap Piece.text) := by
  obtain ⟨s, span, hp, hfirst⟩ := first?_of_pieces h
  refine ⟨s, span, hp, ?_⟩
  cases hrest : p.text ++ after.flatMap Piece.text with
  | nil =>
    rw [hrest] at hfirst
    cases hfirst
  | cons c rest =>
    rw [hrest] at hfirst
    have hdescribed := Segment.cut_described c rest
    rwa [Option.some.inj hfirst] at hdescribed

/-- The token of a piece is spelled by its text and is the longest one there. -/
theorem taken_of_pieces {t : Token} (h : pieces position text = before ++ p :: after)
    (ht : p.token? = some t) :
    t.kind.Spells p.text t.value ∧ t.kind.Taken t.value p.text (after.flatMap Piece.text) := by
  have hfaithful := (pieces_faithful position text p (by simp [h])).2
  obtain ⟨⟨_ | _, w⟩, span, rfl, hdescribed⟩ := described_of_pieces h
  · cases ht
    exact ⟨hfaithful, hdescribed⟩
  · cases ht

/-- The gap of a piece holds its text and has one of the shapes of gaps. -/
theorem gapShape_of_pieces {g : Gap} (h : pieces position text = before ++ p :: after)
    (hg : p.gap? = some g) :
    g.lexeme.toList = p.text ∧ GapShape p.text (after.flatMap Piece.text) := by
  have hfaithful := (pieces_faithful position text p (by simp [h])).2
  obtain ⟨⟨_ | _, w⟩, span, rfl, hdescribed⟩ := described_of_pieces h
  · cases hg
  · cases hg
    exact ⟨hfaithful, hdescribed⟩

end Pieces

/-- Every token of a script is written as the longest text of its class that stands at its place,
and its value is the one that this text denotes. -/
theorem tokens_are_longest (source : String) :
    CutInto source (pieces .origin source.toList) ∧
      ∀ before p after t, pieces .origin source.toList = before ++ p :: after →
        p.token? = some t →
        t.kind.Spells p.text t.value ∧ t.kind.Taken t.value p.text (after.flatMap Piece.text) :=
  ⟨cutInto_pieces source, fun _ _ _ _ hpieces ht => taken_of_pieces hpieces ht⟩

/-- A gap of unrecognised characters ends before one that is recognised. -/
theorem GapShape.isRecognized {w rest : List Char} (h : GapShape w rest)
    (hrun : ∀ c ∈ w, ¬ IsRecognized c) : ∀ c ∈ rest.head?, IsRecognized c := by
  obtain ⟨body, rfl, -⟩ | ⟨quote, contents, rfl, hquote, -⟩ | ⟨-, -, hend⟩ := h
  · exact absurd (.inr (.inr (.inr ⟨.div, rfl⟩))) (hrun '/' List.mem_cons_self)
  · exact absurd (.inr (.inr (.inl hquote))) (hrun quote List.mem_cons_self)
  · exact hend

/-- Where no token can start, all is skipped up to where one can. -/
theorem Segment.cut_of_not_startsToken {c : Char} (h : startsToken c = false) (rest : List Char) :
    cut c rest =
      (⟨.gap, c :: rest.takeWhile (!startsToken ·)⟩, rest.dropWhile (!startsToken ·)) := by
  have hnot : ¬ IsRecognized c := by simp [← startsToken_iff, h]
  have hblank : ¬ isBlank c = true := fun hyes => hnot (.inl hyes)
  have hend : ¬ isLineEnd c = true := fun hyes => hblank (isBlank_of_isLineEnd hyes)
  have hpunctuator (p : Punctuator) : p.spelling.toList.head? ≠ some c :=
    fun hyes => hnot (.inr (.inr (.inr ⟨p, hyes⟩)))
  have hslash : c ≠ '/' := by
    rintro rfl
    exact hpunctuator .div rfl
  have hquote : ¬ isQuote c = true := fun hyes => hnot (.inr (.inr (.inl hyes)))
  have hname : ¬ isNameStart c = true :=
    fun hyes => hnot (.inr (.inl (.inl (isNameStart_iff.1 hyes))))
  have hdigit : ¬ (isDecimalDigit c = true ∨ c = '.' ∧ startsWithDigit 10 rest = true) := by
    rintro (hyes | ⟨rfl, -⟩)
    · exact hnot (.inr (.inl (.inr (isDecimalDigit_iff.1 hyes))))
    · exact hpunctuator .dot rfl
  have hmark : Punctuator.longest? (c :: rest) = none := by
    refine Option.not_isSome_iff_eq_none.1 fun hyes => ?_
    obtain ⟨p, hp⟩ := (Punctuator.longest?_isSome_iff rest).1 hyes
    exact hpunctuator p hp
  rw [cut, if_neg hend, if_neg hblank, if_neg fun hyes => hslash hyes.1,
    if_neg fun hyes => hslash hyes.1, if_neg hquote, if_neg hname, if_neg hdigit, mark, hmark]

/-- A text starts with a gap of unrecognised characters just if its first character would not end
one. -/
theorem Segment.startsToken_eq_false_iff (c : Char) (rest : List Char) :
    startsToken c = false ↔ (cut c rest).1.content = .gap ∧
      IsUnrecognized (cut c rest).1.text (cut c rest).2 := by
  refine ⟨fun h => ?_, fun h => ?_⟩
  · rw [cut_of_not_startsToken h]
    exact ⟨rfl, isUnrecognized_run (by simp [← startsToken_iff, h]) rest⟩
  · have hmem : c ∈ (cut c rest).1.text := by
      obtain ⟨d, w, htext⟩ := List.exists_cons_of_ne_nil (cut_text_ne_nil c rest)
      have happend := cut_append c rest
      rw [htext, List.cons_append, List.cons.injEq] at happend
      rw [htext, happend.1]
      exact List.mem_cons_self
    rw [← Bool.not_eq_true, startsToken_iff]
    exact h.2.2.1 c hmem

/-- Every gap of a script has one of the three shapes. Two gaps of unrecognised characters do not
follow on each other, and the characters before which such a gap ends are just those that do not
start one. -/
theorem gaps_are_shaped (source : String) :
    CutInto source (pieces .origin source.toList) ∧
      (∀ before p after g, pieces .origin source.toList = before ++ p :: after →
        p.gap? = some g →
        g.lexeme.toList = p.text ∧ GapShape p.text (after.flatMap Piece.text)) ∧
      (∀ before p q after g g', pieces .origin source.toList = before ++ p :: q :: after →
        p.gap? = some g → q.gap? = some g' →
        (∀ c ∈ p.text, ¬ IsRecognized c) → ∃ c ∈ q.text, IsRecognized c) ∧
      ∀ c rest, startsToken c = false ↔
        (Segment.cut c rest).1.content = .gap ∧
          IsUnrecognized (Segment.cut c rest).1.text (Segment.cut c rest).2 := by
  refine ⟨cutInto_pieces source, fun _ _ _ _ hpieces hg => gapShape_of_pieces hpieces hg, ?_,
    Segment.startsToken_eq_false_iff⟩
  intro before p q after g g' hpieces hg _ hrun
  obtain ⟨-, hshape⟩ := gapShape_of_pieces hpieces hg
  have hne := (pieces_faithful .origin source.toList q (by simp [hpieces])).1
  obtain ⟨c, w, hq⟩ := List.exists_cons_of_ne_nil hne
  refine ⟨c, by simp [hq], hshape.isRecognized hrun c ?_⟩
  rw [List.flatMap_cons, hq]
  rfl

/-! ## Punctuators in front of a text -/

namespace Punctuator

variable {text : List Char} {p : Punctuator}

/-- What is found stands at the front of the text, in its whole length. -/
theorem prefix_of_longest? {count : Nat} (h : longest? text = some (p, count)) :
    p.spelling.toList <+: text ∧ p.spelling.length = count := by
  obtain ⟨hwindow, hspelled⟩ := longest?_eq_some h
  rw [spelledBy?_take hwindow] at hspelled
  obtain ⟨hcount, hspelling⟩ := spelledBy?_eq_some hspelled
  rw [← String.length_toList, hspelling, String.toList_ofList]
  exact ⟨List.take_prefix count text, List.length_take_of_le hcount⟩

/-- Different punctuators are spelled differently. -/
theorem spelling_injective {p q : Punctuator} (h : p.spelling = q.spelling) : p = q := by
  have hfound (p : Punctuator) : ofSpelling? p.spelling = some p := by
    cases p <;> decide +kernel
  exact Option.some.inj ((hfound p).symm.trans (h ▸ hfound q))

/-- A punctuator is found just if one stands at the start of the text. -/
theorem longest?_isSome_iff_exists :
    (longest? text).isSome = true ↔ ∃ p ∈ all, p.spelling.toList <+: text := by
  constructor
  · intro h
    obtain ⟨⟨p, count⟩, hfound⟩ := Option.isSome_iff_exists.1 h
    exact ⟨p, p.mem_all, (prefix_of_longest? hfound).1⟩
  · rintro ⟨p, -, hp⟩
    exact longest?_isSome hp

/-- A punctuator that a text starts with is found if no other one there is longer. -/
theorem longest?_of_maximal (hp : p.spelling.toList <+: text)
    (hlongest : ∀ q ∈ all, q.spelling.toList <+: text → q.spelling.length ≤ p.spelling.length) :
    longest? text = some (p, p.spelling.length) := by
  obtain ⟨⟨q, count⟩, hfound⟩ := Option.isSome_iff_exists.1 (longest?_isSome hp)
  obtain ⟨hq, rfl⟩ := prefix_of_longest? hfound
  have hle : p.spelling.length ≤ q.spelling.length := by
    rw [← String.length_toList]
    exact length_le_of_longest? hfound hp
  have hlength : q.spelling.length = p.spelling.length :=
    Nat.le_antisymm (hlongest q q.mem_all hq) hle
  -- two beginnings of one text that have the same length are the same
  have hspelling : q.spelling = p.spelling := by
    refine String.toList_injective ?_
    rw [List.prefix_iff_eq_take.1 hq, List.prefix_iff_eq_take.1 hp, String.length_toList,
      String.length_toList, hlength]
  rw [hfound, spelling_injective hspelling]

/-- A punctuator is found if the text starts with one of the table. What is found is the one that
the first characters spell and that no longer one of the table exceeds, whatever the length of the
text. Whether something is found, the first character alone decides. -/
theorem longest_is_maximal (text : List Char) :
    ((longest? text).isSome = true ↔ ∃ p ∈ all, p.spelling.toList <+: text) ∧
      (∀ p count, longest? text = some (p, count) ↔
        p ∈ all ∧ p.spelling.length = count ∧ p.spelling.toList = text.take count ∧
          ∀ q ∈ all, q.spelling.toList <+: text → q.spelling.length ≤ count) ∧
      ((longest? text).isSome = true ↔ (longest? (text.take 1)).isSome = true) := by
  refine ⟨longest?_isSome_iff_exists, fun p count => ⟨fun h => ?_, ?_⟩, ?_⟩
  · obtain ⟨hp, hlength⟩ := prefix_of_longest? h
    refine ⟨p.mem_all, hlength, ?_, fun q _ hq => ?_⟩
    · rw [← hlength, ← String.length_toList]
      exact List.prefix_iff_eq_take.1 hp
    · rw [← String.length_toList]
      exact length_le_of_longest? h hq
  · rintro ⟨-, rfl, hspelling, hlongest⟩
    exact longest?_of_maximal (hspelling ▸ List.take_prefix _ text) hlongest
  · cases text with
    | nil => rfl
    | cons c rest => rw [List.take_succ_cons, longest?_isSome_iff, longest?_isSome_iff]

example : longest? ">>>=x".toList = some (.assignUnsignedShiftRight, 4) := by decide +kernel

end Punctuator

end ScriptLint
