import ScriptLint.Grammar.Program
import ScriptLint.Proofs.Token.Offsets

/-!
# Lexers that are used in any order

A lexer can be asked for the next token, for all that remain, and to leave out other kinds of tokens
from then on, in any order. Whatever is asked, the lexer moves on over the pieces of its script
(`Lexer.Passes`): the tokens that it draws are those of the pieces that it passes, and so are the
gaps that it notes. Which kinds are left out does not change where it stands.

Main statement: `exclusion_only_filters`. What one request does is said by `Lexer.next_passes` and
`Lexer.tokenize_passes`, and by induction on the requests a lexer has passed some pieces of its
script, whose tokens were drawn (`Lexer.exists_passed`).
-/

namespace ScriptLint

namespace Lexer

/-! ## Requests -/

/-- What can be asked of a lexer. -/
inductive Request where
  /-- The next token of any kind. -/
  | next
  /-- The tokens that remain, without the kinds that are left out. -/
  | tokenize
  /-- To leave out the given kinds and no others. -/
  | exclude (kinds : List TokenKind)
deriving DecidableEq

/-- What a lexer answers. -/
inductive Answer where
  | token (token? : Option Token)
  | tokens (tokens : List Token)
  | done
deriving DecidableEq

/-- Whether an answer has no token in it. -/
def Answer.isEmpty : Answer → Bool
  | .token found => found.isNone
  | .tokens found => found.isEmpty
  | .done => true

/-- The answer to a request, and the lexer behind it. -/
def answer (lexer : Lexer) : Request → Answer × Lexer
  | .next => (.token lexer.next.1, lexer.next.2)
  | .tokenize => (.tokens lexer.tokenize.1, lexer.tokenize.2)
  | .exclude kinds => (.done, lexer.excluding kinds)

/-- The tokens that a lexer draws for a request: those that calls of `next` give it, before any kind
is left out. -/
def drawn (lexer : Lexer) : Request → List Token
  | .next => lexer.next.1.toList
  | .tokenize => (lexer.excluding []).tokenize.1
  | .exclude _ => []

/-- The lexer behind some requests. -/
def after (lexer : Lexer) : List Request → Lexer
  | [] => lexer
  | request :: requests => (lexer.answer request).2.after requests

/-- The answers to some requests. -/
def answers (lexer : Lexer) : List Request → List Answer
  | [] => []
  | request :: requests => (lexer.answer request).1 :: (lexer.answer request).2.answers requests

/-- The tokens that a lexer draws for some requests. -/
def drawnBy (lexer : Lexer) : List Request → List Token
  | [] => []
  | request :: requests => lexer.drawn request ++ (lexer.answer request).2.drawnBy requests

/-- The kinds that a request names to be left out. -/
def Request.kinds? : Request → Option (List TokenKind)
  | .exclude kinds => some kinds
  | _ => none

/-- The kinds that a lexer leaves out behind some requests: those that were named last, or at first
white space. -/
def inForce (requests : List Request) : List TokenKind :=
  (requests.filterMap Request.kinds?).getLastD [.space]

/-! ## Moving on -/

variable {lexer later last : Lexer} {moved others : List Piece}

/-- `lexer.Passes moved later` says that a lexer passes some pieces on its way. Then it stands
behind them and has noted their gaps. -/
structure Passes (lexer : Lexer) (moved : List Piece) (later : Lexer) : Prop where
  ahead : lexer.pieces = moved ++ later.pieces
  position : later.position = lexer.position.advance (moved.flatMap Piece.text).length lexer.rest
  gaps : later.gaps.toList = lexer.gaps.toList ++ moved.filterMap Piece.gap?

namespace Passes

theorem rest_eq (h : lexer.Passes moved later) :
    lexer.rest = moved.flatMap Piece.text ++ later.rest := by
  have htext := congrArg (List.flatMap Piece.text) h.ahead
  rwa [List.flatMap_append, pieces, pieces, flatMap_pieces, flatMap_pieces] at htext

theorem refl (lexer : Lexer) : lexer.Passes [] lexer :=
  ⟨rfl, rfl, by simp⟩

theorem trans (h : lexer.Passes moved later) (h' : later.Passes others last) :
    lexer.Passes (moved ++ others) last where
  ahead := by rw [h.ahead, h'.ahead, List.append_assoc]
  position := by
    rw [h'.position, h.position, List.flatMap_append, List.length_append, h.rest_eq,
      Position.advance_append]
  gaps := by rw [h'.gaps, h.gaps, List.filterMap_append, List.append_assoc]

end Passes

/-- A lexer that has moved on behind its first segment has passed the piece of it. -/
theorem passes_first {s : Segment} {rest : List Char} {p : Piece}
    (h : Segment.first? lexer.rest = some (s, rest)) (hrest : later.rest = rest)
    (hposition : later.position = lexer.position.advance s.text.length lexer.rest)
    (hp : s.toPiece ⟨lexer.position, later.position⟩ = p)
    (hgaps : later.gaps.toList = lexer.gaps.toList ++ [p].filterMap Piece.gap?) :
    lexer.Passes [p] later where
  ahead := by
    rw [pieces, pieces, pieces_of_some h, ← hp, hrest, hposition]
    rfl
  position := by
    rw [List.flatMap_singleton, ← hp]
    exact hposition
  gaps := hgaps

theorem pieces_of_rest_nil (h : lexer.rest = []) : lexer.pieces = [] :=
  pieces_of_none (by rw [h]; rfl)

/-- The next token is the first one ahead, and the lexer passes it and the gaps before it. If there
is none it comes to the end of its script. -/
theorem next_passes (lexer : Lexer) :
    ∃ moved, lexer.Passes moved lexer.next.2 ∧
      moved.filterMap Piece.token? = lexer.next.1.toList ∧
      (lexer.next.1 = none → lexer.next.2.rest = []) := by
  fun_induction next lexer with
  | case1 lexer hnone =>
    refine ⟨[], .refl lexer, rfl, fun _ => ?_⟩
    cases hrest : lexer.rest with
    | nil => rfl
    | cons c rest =>
      rw [hrest] at hnone
      cases hnone
  | case2 lexer s rest hfirst stop kind value hcontent =>
    have hpiece : s.toPiece ⟨lexer.position, stop⟩ =
        ⟨s.text, .inl ⟨kind, value, ⟨lexer.position, stop⟩⟩⟩ := by
      rw [Segment.toPiece, hcontent]
    exact ⟨_, passes_first hfirst rfl rfl hpiece (List.append_nil _).symm, rfl, by simp⟩
  | case3 lexer s rest hfirst stop hcontent ih =>
    obtain ⟨moved, hpasses, htokens, hend⟩ := ih
    have hpiece : s.toPiece ⟨lexer.position, stop⟩ =
        ⟨s.text, .inr ⟨String.ofList s.text, lexer.position⟩⟩ := by
      rw [Segment.toPiece, hcontent]
    have hgap : lexer.Passes [⟨s.text, .inr ⟨String.ofList s.text, lexer.position⟩⟩]
        ⟨rest, stop, lexer.excluded,
          lexer.gaps.push ⟨String.ofList s.text, lexer.position⟩⟩ :=
      passes_first hfirst rfl rfl hpiece Array.toList_push
    exact ⟨_, hgap.trans hpasses, htokens, hend⟩

/-- A lexer that is asked for all tokens passes all pieces, whatever it leaves out. -/
theorem tokenize_passes (lexer : Lexer) :
    lexer.Passes lexer.pieces lexer.tokenize.2 ∧ lexer.tokenize.2.rest = [] := by
  fun_induction tokenize lexer with
  | case1 lexer later hnext =>
    obtain ⟨moved, hpasses, -, hend⟩ := lexer.next_passes
    rw [hnext] at hpasses hend
    have hrest : later.rest = [] := hend rfl
    have hmoved := hpasses.ahead
    rw [pieces_of_rest_nil hrest, List.append_nil] at hmoved
    exact ⟨hmoved ▸ hpasses, hrest⟩
  | case2 lexer token later hnext kept tokens finish htokens ih =>
    obtain ⟨moved, hpasses, -⟩ := lexer.next_passes
    rw [hnext] at hpasses
    rw [htokens] at ih
    exact ⟨hpasses.ahead ▸ hpasses.trans ih.1, ih.2⟩

/-- What `tokenize` does is to call `next` until there is no token. -/
theorem tokenize_pulls (lexer : Lexer) :
    lexer.Pulls (lexer.pieces.filterMap Piece.token?) lexer.tokenize.2 := by
  obtain ⟨tokens, hpulls⟩ : ∃ tokens, lexer.Pulls tokens lexer.tokenize.2 := by
    fun_induction tokenize lexer with
    | case1 lexer later hnext => exact ⟨[], .done hnext⟩
    | case2 lexer token later hnext kept tokens finish htokens ih =>
      rw [htokens] at ih
      obtain ⟨others, hpulls⟩ := ih
      exact ⟨token :: others, .more hnext hpulls⟩
  rw [hpulls.pieces_eq.1]
  exact hpulls

/-- The next token is the first among the pieces ahead. -/
theorem next_eq_head? (lexer : Lexer) :
    lexer.next.1 = (lexer.pieces.filterMap Piece.token?).head? := by
  obtain ⟨moved, hpasses, htokens, hend⟩ := lexer.next_passes
  rw [hpasses.ahead, List.filterMap_append, htokens]
  cases hnext : lexer.next.1 with
  | none =>
    rw [pieces_of_rest_nil (hend hnext)]
    rfl
  | some token => rfl

/-! ## Sequences of requests -/

/-- For a request a lexer passes some pieces and draws their tokens. -/
theorem answer_passes (lexer : Lexer) (request : Request) :
    ∃ moved, lexer.Passes moved (lexer.answer request).2 ∧
      moved.filterMap Piece.token? = lexer.drawn request := by
  cases request with
  | next =>
    obtain ⟨moved, hpasses, htokens, -⟩ := lexer.next_passes
    exact ⟨moved, hpasses, htokens⟩
  | tokenize =>
    refine ⟨_, lexer.tokenize_passes.1, ?_⟩
    rw [drawn, tokenize_eq]
    exact (List.filter_eq_self.2 fun _ _ => rfl).symm
  | exclude kinds => exact ⟨[], ⟨rfl, rfl, (List.append_nil _).symm⟩, rfl⟩

/-- For any requests a lexer passes some pieces and draws their tokens. -/
theorem exists_passed (lexer : Lexer) (requests : List Request) :
    ∃ passed, lexer.Passes passed (lexer.after requests) ∧
      passed.filterMap Piece.token? = lexer.drawnBy requests := by
  induction requests generalizing lexer with
  | nil => exact ⟨[], .refl lexer, rfl⟩
  | cons request requests ih =>
    obtain ⟨moved, hmoved, hdrawn⟩ := lexer.answer_passes request
    obtain ⟨passed, hpassed, hothers⟩ := ih (lexer.answer request).2
    refine ⟨moved ++ passed, hmoved.trans hpassed, ?_⟩
    rw [List.filterMap_append, hdrawn, hothers]
    rfl

theorem tokenize_excluded (lexer : Lexer) : lexer.tokenize.2.excluded = lexer.excluded := by
  fun_induction tokenize lexer with
  | case1 lexer later hnext => exact next_excluded hnext
  | case2 lexer token later hnext kept tokens finish htokens ih =>
    rw [htokens] at ih
    exact ih.trans (next_excluded hnext)

theorem excluded_after (lexer : Lexer) (requests : List Request) :
    (lexer.after requests).excluded =
      (requests.filterMap Request.kinds?).getLastD lexer.excluded := by
  induction requests generalizing lexer with
  | nil => rfl
  | cons request requests ih =>
    rw [after, ih]
    cases request with
    | next => exact congrArg _ (next_excluded rfl)
    | tokenize => exact congrArg _ lexer.tokenize_excluded
    | exclude kinds => exact List.getLastD_cons.symm

/-! ## The end of a script -/

/-- At the end of its script a lexer passes nothing more. -/
theorem Passes.eq_nil (h : lexer.Passes moved later) (hend : lexer.rest = []) :
    moved = [] ∧ later.rest = [] ∧ later.gaps = lexer.gaps := by
  have hnil := h.ahead
  rw [pieces_of_rest_nil hend] at hnil
  obtain ⟨rfl, -⟩ := List.append_eq_nil_iff.1 hnil.symm
  refine ⟨rfl, ?_, Array.toList_inj.1 (h.gaps.trans (List.append_nil _))⟩
  rw [← hend, h.rest_eq]
  rfl

/-- At the end of its script a lexer has no token for any request. -/
theorem answers_at_end (hend : lexer.rest = []) (requests : List Request) :
    ∀ answer ∈ lexer.answers requests, answer.isEmpty = true := by
  induction requests generalizing lexer with
  | nil => exact List.forall_mem_nil _
  | cons request requests ih =>
    obtain ⟨moved, hpasses, hdrawn⟩ := lexer.answer_passes request
    obtain ⟨rfl, hrest, -⟩ := hpasses.eq_nil hend
    refine List.forall_mem_cons.2 ⟨?_, ih hrest⟩
    cases request with
    | next =>
      rw [answer, Answer.isEmpty, Option.isNone_iff_eq_none]
      exact Option.toList_eq_nil_iff.1 hdrawn.symm
    | tokenize =>
      rw [answer, Answer.isEmpty, tokenize_eq, pieces_of_rest_nil hend]
      rfl
    | exclude kinds => rfl

/-! ## Gaps before the place of a lexer -/

section Source

variable {source : List Char} {passed : List Piece}

theorem Passes.position_eq (h : (ofText source).Passes passed lexer) :
    lexer.position = .ofOffset source (passed.flatMap Piece.text).length := by
  rw [h.position, ← Position.advance_origin]
  · rfl
  · rw [show source = _ from h.rest_eq, List.length_append]
    exact Nat.le_add_right _ _

/-- The gaps that a lexer has noted are those that lie before it. -/
theorem Passes.gaps_eq (h : (ofText source).Passes passed lexer) :
    lexer.gaps.toList = ((ScriptLint.pieces .origin source).filterMap Piece.gap?).filter fun gap =>
      gap.position < lexer.position := by
  have hall : ScriptLint.pieces .origin source = passed ++ lexer.pieces := h.ahead
  have hgap {before after : List Piece} {p : Piece} {gap : Gap}
      (hsplit : ScriptLint.pieces .origin source = before ++ p :: after) (hp : p.gap? = some gap) :
      gap.position = .ofOffset source (before.flatMap Piece.text).length :=
    (occupies_of_pieces hsplit).position gap hp
  -- a gap that was passed starts earlier, since its text is not empty
  have hpassed : ∀ gap ∈ passed.filterMap Piece.gap?, gap.position < lexer.position := by
    intro gap hmem
    obtain ⟨p, hp, hmade⟩ := List.mem_filterMap.1 hmem
    obtain ⟨before, between, rfl⟩ := List.append_of_mem hp
    rw [List.append_assoc, List.cons_append] at hall
    have hne := (pieces_faithful .origin source p (by simp [hall])).1
    rw [hgap hall hmade, h.position_eq]
    refine Position.ofOffset_lt ?_ ?_
    · rw [List.flatMap_append, List.flatMap_cons, List.length_append, List.length_append]
      have := List.length_pos_iff.2 hne
      omega
    · rw [show source = _ from h.rest_eq, List.length_append]
      exact Nat.le_add_right _ _
  -- a gap ahead starts where the lexer stands or later
  have hahead : ∀ gap ∈ lexer.pieces.filterMap Piece.gap?, ¬ gap.position < lexer.position := by
    intro gap hmem
    obtain ⟨p, hp, hmade⟩ := List.mem_filterMap.1 hmem
    obtain ⟨before, after, hsplit⟩ := List.append_of_mem hp
    rw [hsplit, ← List.append_assoc] at hall
    rw [hgap hall hmade, h.position_eq, ← Position.not_le, not_not]
    refine Position.ofOffset_le ?_ (Nat.le_of_add_right_le (length_pieces_le hall))
    rw [List.flatMap_append, List.length_append]
    exact Nat.le_add_right _ _
  rw [h.gaps, hall, List.filterMap_append, List.filter_append,
    List.filter_eq_self.2 fun gap hmem => decide_eq_true (hpassed gap hmem),
    List.filter_eq_nil_iff.2 fun gap hmem => by simpa using hahead gap hmem, List.append_nil]
  rfl

end Source

end Lexer

/-! ## Exclusion -/

/-- How a lexer stands in the stream of the tokens of its script, of which it has drawn some. -/
structure Lexer.Stands (lexer : Lexer) (stream : List Token) (gaps : List Gap)
    (drawn : List Token) (kinds : List TokenKind) : Prop where
  /-- What was drawn is the front of the stream. -/
  front : drawn <+: stream
  /-- The next token is the first of the rest. -/
  next : lexer.next.1 = stream[drawn.length]?
  /-- Asked for all tokens, it draws the rest of the stream. -/
  pulls : lexer.Pulls (stream.drop drawn.length) lexer.tokenize.2
  /-- It gives all of these but the kinds that are left out. -/
  tokenize : lexer.tokenize.1 =
    (stream.drop drawn.length).filter fun t => !kinds.contains t.kind
  /-- It has noted the gaps that lie before it. -/
  gaps : lexer.gaps.toList = gaps.filter fun gap => gap.position < lexer.position

theorem Lexer.Passes.stands {source : List Char} {lexer : Lexer} {passed : List Piece}
    (h : (ofText source).Passes passed lexer) :
    lexer.Stands ((ofText source).pieces.filterMap Piece.token?)
      ((ofText source).pieces.filterMap Piece.gap?) (passed.filterMap Piece.token?)
      lexer.excluded := by
  have hstream := congrArg (List.filterMap Piece.token?) h.ahead
  rw [List.filterMap_append] at hstream
  have hrest : ((ofText source).pieces.filterMap Piece.token?).drop
      (passed.filterMap Piece.token?).length = lexer.pieces.filterMap Piece.token? := by
    rw [hstream, List.drop_left]
  refine ⟨⟨_, hstream.symm⟩, ?_, ?_, ?_, h.gaps_eq⟩
  · rw [lexer.next_eq_head?, ← hrest, List.head?_drop]
  · rw [hrest]
    exact lexer.tokenize_pulls
  · rw [hrest]
    exact lexer.tokenize_eq

/-- Kinds that do not take part in the grammar can be left out or not. -/
theorem Cursor.ofTokens_filter {kinds : List TokenKind}
    (h : ∀ kind ∈ kinds, kind.isTrivia = true) (tokens : List Token) :
    ofTokens (tokens.filter fun t => !kinds.contains t.kind) = ofTokens tokens := by
  rw [ofTokens, ofTokens, List.filter_filter]
  congr 1
  refine List.filter_congr fun t _ => ?_
  cases htrivia : t.isTrivia with
  | true => rfl
  | false =>
    have hnot : t.kind ∉ kinds := fun hmem => by
      rw [Token.isTrivia, h t.kind hmem] at htrivia
      cases htrivia
    simp [hnot]

theorem Cursor.ofTokens_tokenizeExcluding {kinds : List TokenKind}
    (h : ∀ kind ∈ kinds, kind.isTrivia = true) (source : String) :
    ofTokens (tokenizeExcluding source kinds) = ofTokens (tokenize source) := by
  have hspace : tokenize source = tokenizeExcluding source [.space] := rfl
  rw [hspace, tokenizeExcluding_eq, tokenizeExcluding_eq, ofTokens_filter h,
    ofTokens_filter (List.forall_mem_singleton.2 rfl)]

/-- Leaving out kinds of tokens is a filter and nothing else. Whatever is asked of a lexer, in
whatever order, it goes through the one stream of the tokens of its script and notes the gaps that
it passes; where it stands does not depend on what it leaves out. At the end of the script nothing
more is drawn or noted. So the tokens without some kinds are the stream without these kinds, and
white space, line breaks and comments can be left out or not before the grammar is applied. -/
theorem exclusion_only_filters (source : String) :
    ∃ stream finish, (Lexer.ofSource source).Pulls stream finish ∧
      (∀ requests, ((Lexer.ofSource source).after requests).Stands stream finish.gaps.toList
        ((Lexer.ofSource source).drawnBy requests) (Lexer.inForce requests)) ∧
      (∀ requests more, let lexer := (Lexer.ofSource source).after requests
        (lexer.next.1 = none → lexer.next.2.rest = []) ∧ lexer.tokenize.2.rest = [] ∧
        (lexer.rest = [] → (∀ answer ∈ lexer.answers more, answer.isEmpty = true) ∧
          lexer.drawnBy more = [] ∧ (lexer.after more).gaps = lexer.gaps)) ∧
      (∀ kinds, tokenizeExcluding source kinds =
        stream.filter fun t => !kinds.contains t.kind) ∧
      ∀ kinds, (∀ kind ∈ kinds, kind ∈ [.space, .lineBreak, .comment]) →
        Cursor.ofTokens (tokenizeExcluding source kinds) = .ofTokens (tokenize source) ∧
        parseTokens (tokenizeExcluding source kinds) = parse source := by
  have hpulls := (Lexer.ofSource source).tokenize_pulls
  refine ⟨_, _, hpulls, fun requests => ?_, fun requests more => ⟨?_, ?_, fun hend => ⟨?_, ?_⟩⟩,
    tokenizeExcluding_eq source, fun kinds hkinds => ?_⟩
  · obtain ⟨passed, hpasses, hdrawn⟩ := (Lexer.ofSource source).exists_passed requests
    have hstands := hpasses.stands
    rw [hdrawn, Lexer.excluded_after] at hstands
    rw [← hpulls.pieces_eq.2]
    exact hstands
  · obtain ⟨-, -, -, hend⟩ := Lexer.next_passes _
    exact hend
  · exact (Lexer.tokenize_passes _).2
  · exact Lexer.answers_at_end hend more
  · obtain ⟨passed, hpasses, hdrawn⟩ := Lexer.exists_passed _ more
    obtain ⟨rfl, -, hgaps⟩ := hpasses.eq_nil hend
    exact ⟨hdrawn.symm, hgaps⟩
  · have htrivia : ∀ kind ∈ kinds, kind.isTrivia = true := by
      intro kind hkind
      have hmem := hkinds kind hkind
      simp only [List.mem_cons, List.not_mem_nil, or_false] at hmem
      obtain rfl | rfl | rfl := hmem <;> rfl
    have hstart := Cursor.ofTokens_tokenizeExcluding htrivia source
    exact ⟨hstart, by rw [parse, parseTokens, parseTokens, hstart]⟩

end ScriptLint
