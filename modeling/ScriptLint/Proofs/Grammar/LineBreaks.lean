import Mathlib.Logic.Function.Iterate
import ScriptLint.Proofs.Grammar.Layout
import ScriptLint.Proofs.Token.Offsets

/-!
# Line breaks between tokens

The grammar passes over line breaks and comments before it reads, so of the lines of a script it
knows only what the places of the other tokens say. They say it all: between two tokens that follow
each other in the grammar, the line grows by the number of line terminators in the text between them
(`line_of_adjacent`). Places also tell which text that is (`Between.unique`).

Positions count a carriage return by the character behind it. So a text may be counted on its own
only if no line feed follows it, and no token of the grammar starts with one.
-/

namespace ScriptLint

open Text

/-! ## Lines of a text -/

/-- The number of line terminators in a text: line feeds, carriage returns, and pairs of the two. -/
def lineTerminators : List Char → Nat
  | [] => 0
  | '\r' :: '\n' :: text => lineTerminators text + 1
  | c :: text => if isLineEnd c then lineTerminators text + 1 else lineTerminators text

theorem lineTerminators_pos {text : List Char} :
    0 < lineTerminators text ↔ '\n' ∈ text ∨ '\r' ∈ text := by
  fun_induction lineTerminators text with
  | case1 => simp
  | case2 text ih => simp
  | case3 c text hpair hend ih =>
    obtain rfl | rfl := isLineEnd_iff.1 hend <;> simp
  | case4 c text hpair hend ih =>
    rw [isLineEnd_iff, not_or] at hend
    simp [ih, List.mem_cons, Ne.symm hend.1, Ne.symm hend.2]

namespace Position

/-- A text leads as many lines down as it has line terminators, unless it ends within one. -/
theorem line_advance (p : Position) (text : List Char) {rest : List Char}
    (h : rest.head? ≠ some '\n') :
    (p.advance text.length (text ++ rest)).line = p.line + lineTerminators text := by
  fun_induction lineTerminators text generalizing p with
  | case1 => rfl
  | case2 text ih => simp [advance, ih, next, Nat.add_assoc, Nat.add_comm 1]
  | case3 c text hpair hend ih =>
    have hnext : (p.next c (text ++ rest).head?).line = p.line + 1 := by
      obtain rfl | rfl := isLineEnd_iff.1 hend
      · rfl
      · cases text with
        | nil => simp [next, h]
        | cons d text =>
          have hd : d ≠ '\n' := fun hd => hpair text rfl (hd ▸ rfl)
          simp [next, hd]
    rw [List.length_cons, List.cons_append, advance, ih, hnext]
    omega
  | case4 c text hpair hend ih =>
    rw [isLineEnd_iff, not_or] at hend
    rw [List.length_cons, List.cons_append, advance, ih, next, if_neg (by simp [hend])]

/-- A position is that of one place in a text. -/
theorem eq_of_advance_eq (p : Position) {text front front' : List Char} (hfront : front <+: text)
    (hfront' : front' <+: text) (h : p.advance front.length text = p.advance front'.length text) :
    front = front' := by
  have hlength : front.length = front'.length := by
    obtain hlt | heq | hlt := Nat.lt_trichotomy front.length front'.length
    · exact absurd (h ▸ le_refl _) (p.not_advance_le hlt hfront'.length_le)
    · exact heq
    · exact absurd (h ▸ le_refl _) (p.not_advance_le hlt hfront.length_le)
  exact (List.prefix_of_prefix_length_le hfront hfront' hlength.le).eq_of_length hlength

end Position

/-! ## Where tokens stand -/

/-- `t.Stands source front word` says that a script has the token `t` behind the text `front`, where
it is written as `word`. -/
structure Token.Stands (t : Token) (source front word : List Char) : Prop where
  within : front ++ word <+: source
  spells : t.kind.Spells word t.value
  start : t.span.start = Position.origin.advance front.length source
  stop : t.span.stop = Position.origin.advance (front ++ word).length source

/-- `Between source t u text` says that a script has `text` between its tokens `t` and `u`. -/
def Between (source : List Char) (t u : Token) (text : List Char) : Prop :=
  ∃ front word word', t.Stands source front word ∧ u.Stands source (front ++ word ++ text) word'

/-- There is one text between two tokens. -/
theorem Between.unique {source text text' : List Char} {t u : Token}
    (h : Between source t u text) (h' : Between source t u text') : text = text' := by
  obtain ⟨front, word, _, ht, hu⟩ := h
  obtain ⟨front', word', _, ht', hu'⟩ := h'
  have hfront : front ++ word = front' ++ word' :=
    Position.eq_of_advance_eq .origin ht.within ht'.within (ht.stop.symm.trans ht'.stop)
  have hall : front ++ word ++ text = front' ++ word' ++ text' :=
    Position.eq_of_advance_eq .origin ((List.prefix_append _ _).trans hu.within)
      ((List.prefix_append _ _).trans hu'.within) (hu.start.symm.trans hu'.start)
  rw [hfront] at hall
  exact List.append_cancel_left hall

section Pieces

variable {position : Position} {text : List Char}
variable {before after : List Piece} {p : Piece} {t : Token}

theorem stands_of_pieces (h : pieces .origin text = before ++ p :: after) (ht : p.token? = some t) :
    t.Stands text (before.flatMap Piece.text) p.text := by
  have hspan := span_of_pieces h ht
  refine ⟨⟨after.flatMap Piece.text, ?_⟩, ?_, by rw [hspan], by rw [hspan]⟩
  · rw [← flatMap_pieces .origin text, h, List.flatMap_append, List.flatMap_cons, List.append_assoc]
  · have hfaithful := (pieces_faithful .origin text p (h ▸ by simp)).2
    obtain ⟨word, _ | _⟩ := p
    · cases ht
      exact hfaithful
    · cases ht

end Pieces

/-- A token of the grammar does not start with a line feed. -/
theorem head?_ne_of_mem_pieces {position : Position} {text : List Char} {p : Piece} {t : Token}
    (hp : p ∈ pieces position text) (ht : p.token? = some t) (htrivia : t.isTrivia = false) :
    p.text.head? ≠ some '\n' := by
  fun_induction pieces position text with
  | case1 => cases hp
  | case2 position text s rest hsome stop ih =>
    obtain rfl | hp := List.mem_cons.1 hp
    · intro hhead
      have hstart : text.head? = some '\n' := by
        rw [← first?_append hsome, List.head?_append, show s.text.head? = some '\n' from hhead]
        rfl
      obtain ⟨tail, rfl⟩ := List.head?_eq_some_iff.1 hstart
      rw [Segment.first?, Segment.cut_lineFeed] at hsome
      cases hsome
      cases ht
      cases htrivia
    · exact ih hp

/-! ## Tokens that follow each other -/

/-- The token of a piece, if it takes part in the grammar. -/
def Piece.significant? (p : Piece) : Option Token := p.token?.filter fun t => !t.isTrivia

theorem Piece.significant?_eq_some {p : Piece} {t : Token} :
    p.significant? = some t ↔ p.token? = some t ∧ t.isTrivia = false := by
  simp [significant?, Option.filter_eq_some_iff]

/-- The tokens of the grammar are those among the pieces. -/
theorem significant_tokenize (source : String) :
    significant (tokenize source) =
      (pieces .origin source.toList).filterMap Piece.significant? := by
  have hkept : (fun t : Token => !t.isTrivia && !(Lexer.ofSource source).excluded.contains t.kind) =
      fun t => !t.isTrivia := by
    funext ⟨kind, _, _⟩
    cases kind <;> rfl
  rw [tokenize, Lexer.tokenize_eq, significant, List.filter_filter, hkept, List.filter_filterMap]
  rfl

theorem iterate_advance {tokens : List Token} {i : Nat} (h : i ≤ (significant tokens).length) :
    Cursor.advance^[i] (.ofTokens tokens) = .atIndex (significant tokens) i := by
  induction i with
  | zero => rfl
  | succ i ih =>
    rw [Function.iterate_succ_apply', ih (Nat.le_of_succ_le h), Cursor.advance_atIndex h]

/-- Two tokens that follow each other in the grammar, with the pieces between them. -/
theorem exists_pieces {source : String} {i : Nat} {t u : Token}
    (ht : (significant (tokenize source))[i]? = some t)
    (hu : (significant (tokenize source))[i + 1]? = some u) :
    ∃ before p between q after,
      pieces .origin source.toList = before ++ p :: (between ++ q :: after) ∧
      p.significant? = some t ∧ q.significant? = some u := by
  obtain ⟨hi, rfl⟩ := List.getElem?_eq_some_iff.1 hu
  obtain ⟨hi', rfl⟩ := List.getElem?_eq_some_iff.1 ht
  have hsplit := (significant (tokenize source)).take_append_drop i
  rw [List.drop_eq_getElem_cons hi', List.drop_eq_getElem_cons hi] at hsplit
  have hpieces := hsplit.trans (significant_tokenize source)
  obtain ⟨early, late, hlist, -, hlate⟩ := List.filterMap_eq_append_iff.1 hpieces.symm
  obtain ⟨skipped, p, later, rfl, -, hp, hlater⟩ := List.filterMap_eq_cons_iff.1 hlate
  obtain ⟨between, q, after, rfl, -, hq, -⟩ := List.filterMap_eq_cons_iff.1 hlater
  exact ⟨early ++ skipped, p, between, q, after, by rw [hlist, List.append_assoc], hp, hq⟩

/-- The text between two tokens that follow each other in the grammar leads from the line of the
first to the line of the second. -/
theorem exists_between {source : String} {i : Nat} {t u : Token}
    (ht : (significant (tokenize source))[i]? = some t)
    (hu : (significant (tokenize source))[i + 1]? = some u) :
    ∃ text, Between source.toList t u text ∧
      u.span.start.line = t.span.stop.line + lineTerminators text := by
  obtain ⟨before, p, between, q, after, hpieces, hp, hq⟩ := exists_pieces ht hu
  rw [Piece.significant?_eq_some] at hp hq
  have hpieces' : pieces .origin source.toList = (before ++ p :: between) ++ q :: after := by
    rw [hpieces, List.append_assoc, List.cons_append]
  have htext : source.toList = (before.flatMap Piece.text ++ p.text) ++
      (between.flatMap Piece.text ++ (q.text ++ after.flatMap Piece.text)) := by
    rw [← flatMap_pieces .origin source.toList, hpieces]
    simp
  have ht' := stands_of_pieces hpieces hp.1
  have hu' : u.Stands source.toList
      (before.flatMap Piece.text ++ p.text ++ between.flatMap Piece.text) q.text := by
    have hstands := stands_of_pieces hpieces' hq.1
    rwa [List.flatMap_append, List.flatMap_cons, ← List.append_assoc] at hstands
  -- the second token does not start with a line feed, so the text before it ends its last line
  have hhead : (q.text ++ after.flatMap Piece.text).head? ≠ some '\n' := by
    have hmem : q ∈ pieces .origin source.toList := by simp [hpieces]
    have hne := (pieces_faithful .origin source.toList q hmem).1
    rw [List.head?_append_of_ne_nil _ hne]
    exact head?_ne_of_mem_pieces hmem hq.1 hq.2
  refine ⟨between.flatMap Piece.text, ⟨_, _, _, ht', hu'⟩, ?_⟩
  rw [hu'.start, ht'.stop, List.length_append, htext, Position.advance_append,
    Position.line_advance _ _ hhead]

/-- The places of two tokens that follow each other in the grammar tell the line terminators in the
text between them, and a line ends before the second one for the grammar if there are any. -/
theorem line_of_adjacent {source : String} {i : Nat} {t u : Token}
    (ht : (significant (tokenize source))[i]? = some t)
    (hu : (significant (tokenize source))[i + 1]? = some u) :
    (∃ text, Between source.toList t u text) ∧ ∀ text, Between source.toList t u text →
      u.span.start.line = t.span.stop.line + lineTerminators text ∧
      ((Cursor.advance^[i + 1] (.ofTokens (tokenize source))).newlineBefore = true ↔
        '\n' ∈ text ∨ '\r' ∈ text) := by
  obtain ⟨between, hbetween, hlines⟩ := exists_between ht hu
  refine ⟨⟨between, hbetween⟩, fun text htext => ?_⟩
  obtain rfl := hbetween.unique htext
  refine ⟨hlines, ?_⟩
  have hlength : i + 1 ≤ (significant (tokenize source)).length :=
    Nat.le_of_lt (List.getElem?_eq_some_iff.1 hu).1
  rw [iterate_advance hlength, Cursor.newlineBefore_atIndex, breaksAt, ht, hu,
    ← lineTerminators_pos, decide_eq_true_iff, hlines]
  omega

theorem line_of_adjacent_comment :
    ∃ t u, (significant (tokenize "a /* \r\n */ // b\n;"))[0]? = some t ∧
      (significant (tokenize "a /* \r\n */ // b\n;"))[1]? = some u ∧
      (∃ text, Between "a /* \r\n */ // b\n;".toList t u text) ∧
      ∀ text, Between "a /* \r\n */ // b\n;".toList t u text →
        u.span.start.line = t.span.stop.line + lineTerminators text ∧
        ((Cursor.advance^[1] (.ofTokens (tokenize "a /* \r\n */ // b\n;"))).newlineBefore = true ↔
          '\n' ∈ text ∨ '\r' ∈ text) := by
  have ht : (significant (tokenize "a /* \r\n */ // b\n;"))[0]? =
      some ⟨.identifier, .identifier "a", ⟨⟨1, 0⟩, ⟨1, 1⟩⟩⟩ := by decide +kernel
  have hu : (significant (tokenize "a /* \r\n */ // b\n;"))[1]? =
      some ⟨.punctuator .semicolon, .none, ⟨⟨3, 0⟩, ⟨3, 1⟩⟩⟩ := by decide +kernel
  exact ⟨_, _, ht, hu, line_of_adjacent ht hu⟩

end ScriptLint
