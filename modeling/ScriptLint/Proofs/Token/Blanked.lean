import ScriptLint.Proofs.Token.Faded
import ScriptLint.Proofs.Token.Offsets

/-!
# Comments and gaps as white space

A script with its comments and gaps blanked out has blanks in their place, and the line ends that
lie within them (`blankOut`). It is cut into the same pieces, but that where there was a comment or
a gap there is white space now, which may run together with white space around it. Its pieces other
than white space are therefore the tokens of the grammar that the script had, at the same places
(`shown_blankFrom`).

White space is gone through character by character (`shown_cons_of_isBlank`), so it does not count
how it is cut into pieces. All other pieces are cut off as before, because the text behind them has
only faded.
-/

namespace ScriptLint

open Text

/-! ## Scripts without comments and gaps -/

/-- A blank in the place of a character, unless the character ends a line. -/
def blankOf (c : Char) : Char := if isLineEnd c then c else ' '

namespace Piece

/-- Whether a piece is white space or a line break. -/
def isWhite (p : Piece) : Bool :=
  match p.made with
  | .inl token => token.kind == .space || token.kind == .lineBreak
  | .inr _ => false

/-- Whether a piece is a comment or a gap. -/
def isVoid (p : Piece) : Bool :=
  match p.made with
  | .inl token => token.kind == .comment
  | .inr _ => true

/-- The text of a piece, with blanks in the place of a comment or a gap. -/
def blanked (p : Piece) : List Char := if p.isVoid then p.text.map blankOf else p.text

end Piece

/-- A text that starts at a position, with its comments and gaps blanked out. -/
def blankFrom (position : Position) (text : List Char) : List Char :=
  (pieces position text).flatMap Piece.blanked

/-- A script with blanks in the place of its comments and gaps. -/
def blankOut (source : String) : String := String.ofList (blankFrom .origin source.toList)

/-- The gaps of a script. -/
def gapsOf (source : String) : List Gap := (Lexer.ofSource source).tokenize.2.gaps.toList

theorem gapsOf_eq (source : String) :
    gapsOf source = (pieces .origin source.toList).filterMap Piece.gap? := by
  rw [gapsOf, Lexer.tokenize_gaps, Lexer.allGaps]
  rfl

/-- `CutInto source ps` says that a script is cut into the pieces `ps`, which are its tokens of
every kind and its gaps. -/
structure CutInto (source : String) (ps : List Piece) : Prop where
  text : ps.flatMap Piece.text = source.toList
  tokens : ps.filterMap Piece.token? = tokenizeExcluding source []
  gaps : ps.filterMap Piece.gap? = gapsOf source
  faithful : ∀ p ∈ ps, p.Faithful

/-- A script is cut into its pieces. -/
theorem cutInto_pieces (source : String) : CutInto source (pieces .origin source.toList) where
  text := flatMap_pieces _ _
  tokens := by
    rw [tokenizeExcluding, Lexer.tokenize_eq]
    exact (List.filter_eq_self.2 fun _ _ => rfl).symm
  gaps := (gapsOf_eq source).symm
  faithful p hp := (pieces_faithful .origin source.toList p hp).2

/-- What is blanked out are the comments and gaps among the pieces of a script. -/
theorem exists_cutInto (source : String) :
    ∃ ps, CutInto source ps ∧ (blankOut source).toList = ps.flatMap Piece.blanked :=
  ⟨_, cutInto_pieces source, by rw [blankOut, String.toList_ofList, blankFrom]⟩

theorem fades_blankOf (c : Char) : Fades c (blankOf c) := by
  unfold blankOf
  split
  · exact .inl rfl
  · next hend => exact .inr ⟨rfl, eq_false_of_ne_true hend⟩

theorem isBlank_blankOf (c : Char) : isBlank (blankOf c) = true := by
  unfold blankOf
  split
  · next hend => exact isBlank_of_isLineEnd hend
  · decide

theorem Piece.faded_blanked (p : Piece) : Faded p.text p.blanked := by
  unfold Piece.blanked
  split
  · rw [Faded, List.forall₂_map_right_iff]
    exact List.forall₂_same.2 fun c _ => fades_blankOf c
  · exact Faded.refl _

theorem faded_blankFrom (position : Position) (text : List Char) :
    Faded text (blankFrom position text) := by
  have hpieces (ps : List Piece) : Faded (ps.flatMap Piece.text) (ps.flatMap Piece.blanked) := by
    induction ps with
    | nil => exact .nil
    | cons p ps ih =>
      rw [List.flatMap_cons, List.flatMap_cons]
      exact List.rel_append p.faded_blanked ih
  have hfaded := hpieces (pieces position text)
  rwa [flatMap_pieces] at hfaded

/-! ## Places -/

/-- Line ends stay where they are. -/
theorem Fades.eq_iff {c d e : Char} (h : Fades c d) (he : isLineEnd e = true) : d = e ↔ c = e := by
  obtain rfl | ⟨rfl, hend⟩ := h
  · exact Iff.rfl
  · constructor
    · rintro rfl
      exact absurd he (by decide)
    · rintro rfl
      rw [he] at hend
      cases hend

/-- A faded text leads to the same places. -/
theorem Position.advance_faded (p : Position) (count : Nat) {text text' : List Char}
    (h : Faded text text') : p.advance count text' = p.advance count text := by
  induction h generalizing p count with
  | nil => rfl
  | @cons c d text text' hfades htext ih =>
    cases count with
    | zero => rfl
    | succ count =>
      have hhead : text'.head? = some '\n' ↔ text.head? = some '\n' := by
        cases htext with
        | nil => exact Iff.rfl
        | cons hfades' _ => simpa using hfades'.eq_iff rfl
      have hnext : p.next d text'.head? = p.next c text.head? := by
        have hfeed : d = '\n' ↔ c = '\n' := hfades.eq_iff rfl
        have hreturn : d = '\r' ↔ c = '\r' := hfades.eq_iff rfl
        simp only [next, hfeed, hreturn, ne_eq, hhead]
      rw [advance, advance, hnext, ih]

/-! ## Pieces other than white space -/

/-- The pieces of a text that are not white space. -/
def shown (position : Position) (text : List Char) : List Piece :=
  (pieces position text).filter fun p => !p.isWhite

section Shown

variable {position : Position} {text rest : List Char} {s : Segment}

theorem shown_of_white (h : Segment.first? text = some (s, rest))
    (hwhite : (s.toPiece ⟨position, position.advance s.text.length text⟩).isWhite = true) :
    shown position text = shown (position.advance s.text.length text) rest := by
  rw [shown, pieces_of_some h, List.filter_cons_of_neg (by simp [hwhite]), shown]

/-- White space at the start of a text is not shown, however much of it there is. -/
theorem shown_dropWhile (position : Position) (text : List Char) :
    shown position text =
      shown (position.advance (text.takeWhile isInlineBlank).length text)
        (text.dropWhile isInlineBlank) := by
  cases text with
  | nil => rfl
  | cons c text =>
    by_cases hc : isInlineBlank c = true
    · have hblank : isBlank c = true ∧ isLineEnd c = false := by
        simpa [isInlineBlank] using hc
      have hfirst : Segment.first? (c :: text) = some (Segment.blanks (c :: text)) := by
        simp [Segment.first?, Segment.cut, hblank]
      exact shown_of_white hfirst rfl
    · rw [List.takeWhile_cons_of_neg hc, List.dropWhile_cons_of_neg hc]
      rfl

/-- A character of white space at the start of a text is not shown. -/
theorem shown_cons_of_isBlank {c : Char} (h : isBlank c = true) :
    shown position (c :: text) = shown (position.next c text.head?) text := by
  by_cases hend : isLineEnd c = true
  · have hfirst : Segment.first? (c :: text) = some (Segment.lineBreak c text) := by
      simp [Segment.first?, Segment.cut, hend]
    rw [Segment.lineBreak] at hfirst
    split at hfirst
    · next hpair =>
      -- the line feed behind a carriage return makes a line break on its own too
      obtain ⟨rfl, hhead⟩ := hpair
      obtain ⟨rest, rfl⟩ := List.head?_eq_some_iff.1 hhead
      have hfeed : Segment.first? ('\n' :: rest) = some (.verbatim .lineBreak ['\n'], rest) := by
        rw [Segment.first?, Segment.cut_lineFeed]
      rw [shown_of_white hfirst rfl, shown_of_white hfeed rfl]
      rfl
    · rw [shown_of_white hfirst rfl]
      simp [Segment.verbatim, Position.advance]
  · have hc : isInlineBlank c = true := by simp [isInlineBlank, h, hend]
    rw [shown_dropWhile position (c :: text), shown_dropWhile _ text,
      List.takeWhile_cons_of_pos hc, List.dropWhile_cons_of_pos hc, List.length_cons,
      Position.advance]

/-- White space before a text is not shown. -/
theorem shown_append_of_isBlank {white : List Char} (h : ∀ c ∈ white, isBlank c = true) :
    shown position (white ++ text) =
      shown (position.advance white.length (white ++ text)) text := by
  induction white generalizing position with
  | nil => rfl
  | cons c white ih =>
    rw [List.cons_append, shown_cons_of_isBlank (h c List.mem_cons_self),
      ih fun d hd => h d (List.mem_cons_of_mem _ hd), List.length_cons, Position.advance]

end Shown

/-! ## What blanking out leaves -/

namespace Segment

/-- A piece of a token of the grammar is neither white space nor a comment nor a gap, and every
other piece is one of these. -/
theorem isWord_iff (s : Segment) (span : Span) :
    s.IsWord ↔ (s.toPiece span).isWhite = false ∧ (s.toPiece span).isVoid = false := by
  obtain ⟨content, text⟩ := s
  cases content with
  | gap => simp [IsWord, toPiece, Piece.isWhite, Piece.isVoid]
  | token kind value =>
    cases kind <;> simp [IsWord, toPiece, Piece.isWhite, Piece.isVoid, TokenKind.isTrivia]

theorem classifyWord_content {word : String} {kind : TokenKind} {value : TokenValue}
    (h : classifyWord word = .token kind value) : kind.isTrivia = false := by
  unfold classifyWord at h
  split at h
  · cases h; rfl
  split at h
  · cases h; rfl
  split at h
  · cases h; rfl
  split at h
  · cases h; rfl
  split at h
  · cases h; rfl
  · cases h; rfl

theorem cutWord_content {c : Char} {rest : List Char} {kind : TokenKind} {value : TokenValue}
    (h : (cutWord c rest).1.content = .token kind value) : kind.isTrivia = false := by
  rw [cutWord] at h
  split at h
  · rw [quoted] at h
    split at h
    · cases h; rfl
    · cases h
  split at h
  · exact classifyWord_content h
  split at h
  · cases h; rfl
  · rw [mark] at h
    split at h
    · cases h; rfl
    · cases h

theorem not_isWhite_cutWord (c : Char) (rest : List Char) (span : Span) :
    ((cutWord c rest).1.toPiece span).isWhite = false := by
  rw [toPiece]
  cases hcontent : (cutWord c rest).1.content with
  | gap => rfl
  | token kind value =>
    have hkind := cutWord_content hcontent
    cases kind with
    | space | lineBreak | comment => cases hkind
    | _ => rfl

/-- A segment that is white space consists of it. -/
theorem isBlank_of_white {c : Char} {rest : List Char} {span : Span}
    (h : ((cut c rest).1.toPiece span).isWhite = true) :
    ∀ d ∈ (cut c rest).1.text, isBlank d = true := by
  rw [cut] at h ⊢
  split at h
  · next hend =>
    have hc := isBlank_of_isLineEnd hend
    have hfeed : isBlank '\n' = true := by decide
    rw [if_pos hend, lineBreak]
    split <;> simp [verbatim, hc, hfeed]
  next hend =>
  rw [if_neg hend]
  split at h
  · next hblank =>
    rw [if_pos hblank]
    intro d hd
    have hinline := List.all_eq_true.1 List.all_takeWhile d hd
    simp only [isInlineBlank, Bool.and_eq_true] at hinline
    exact hinline.1
  split at h
  · cases h
  split at h
  · rw [blockComment] at h
    split at h
    · cases h
    · cases h
  · change ((cutWord c rest).1.toPiece span).isWhite = true at h
    rw [not_isWhite_cutWord] at h
    cases h

/-- A segment that is no token of the grammar is blanked to white space. -/
theorem isBlank_blanked {text rest : List Char} {s : Segment} {span : Span}
    (h : first? text = some (s, rest)) (hword : ¬ s.IsWord) :
    ∀ c ∈ (s.toPiece span).blanked, isBlank c = true := by
  rw [Piece.blanked]
  split
  · intro c hc
    obtain ⟨d, _, rfl⟩ := List.mem_map.1 hc
    exact isBlank_blankOf d
  · next hvoid =>
    have hwhite : (s.toPiece span).isWhite = true := by
      rw [s.isWord_iff span, not_and] at hword
      exact eq_true_of_ne_false fun hwhite => hword hwhite (eq_false_of_ne_true hvoid)
    cases text with
    | nil => cases h
    | cons c text =>
      obtain rfl : (cut c text).1 = s := congrArg Prod.fst (Option.some.inj h)
      exact isBlank_of_white hwhite

end Segment

/-- The pieces other than white space of a text that was blanked out are those of the text that are
no comments and no gaps either. -/
theorem shown_blankFrom (position : Position) (text : List Char) :
    shown position (blankFrom position text) =
      (pieces position text).filter fun p => !p.isWhite && !p.isVoid := by
  fun_induction pieces position text with
  | case1 position text hnone =>
    rw [blankFrom, pieces_of_none hnone, List.flatMap_nil, shown, pieces_of_none rfl]
    rfl
  | case2 position text s rest hsome stop ih =>
    have hblank : blankFrom position text =
        (s.toPiece ⟨position, stop⟩).blanked ++ blankFrom stop rest := by
      rw [blankFrom, pieces_of_some hsome, List.flatMap_cons, blankFrom]
    have hstop : position.advance s.text.length (blankFrom position text) = stop :=
      position.advance_faded _ (faded_blankFrom position text)
    by_cases hword : s.IsWord
    · -- a token of the grammar is cut off before the blanked text as it was before the text
      obtain ⟨hwhite, hvoid⟩ := (s.isWord_iff ⟨position, stop⟩).1 hword
      have htext : (s.toPiece ⟨position, stop⟩).blanked = s.text := by
        rw [Piece.blanked, hvoid]
        rfl
      have hfirst : Segment.first? (blankFrom position text) = some (s, blankFrom stop rest) := by
        rw [hblank, htext]
        exact Segment.first?_faded hsome hword (faded_blankFrom stop rest)
      rw [shown, pieces_of_some hfirst, hstop, List.filter_cons_of_pos (by simp [hwhite]),
        List.filter_cons_of_pos (by simp [hwhite, hvoid]), ← ih, shown]
    · have hdropped := mt (s.isWord_iff ⟨position, stop⟩).2 hword
      have hall : ∀ c ∈ (s.toPiece ⟨position, stop⟩).blanked, isBlank c = true :=
        Segment.isBlank_blanked hsome hword
      have hlength : (s.toPiece ⟨position, stop⟩).blanked.length = s.text.length :=
        (s.toPiece ⟨position, stop⟩).faded_blanked.length_eq.symm
      rw [hblank] at hstop
      rw [hblank, shown_append_of_isBlank hall, hlength, hstop, ih,
        List.filter_cons_of_neg (by simpa using hdropped)]

end ScriptLint
