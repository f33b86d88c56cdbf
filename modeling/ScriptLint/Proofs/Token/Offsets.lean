import ScriptLint.Proofs.Token.Order
import ScriptLint.Proofs.Token.Partition

/-!
# Positions and offsets

A lexer counts lines and columns as it goes. Here the position of an offset is read off from the
whole text instead: the line terminators are listed first, with the offsets at which they end, and
the terminators up to an offset give its line and its column (`Position.ofOffset`). The two agree at
every offset (`Position.advance_origin`), also at one between a carriage return and its line feed.

Main statement: every token and every gap stands at the positions of the offsets of its piece, and
positions grow with offsets, so a span tells the piece of the script (`pieces_at_offsets`).
-/

namespace ScriptLint

open Text

/-! ## The position of an offset -/

/-- The offsets at which the line terminators of a text end, where the text starts at `start`. A
carriage return and a line feed behind it are one terminator. -/
def lineEnds (start : Nat) : List Char → List Nat
  | [] => []
  | '\r' :: '\n' :: text => (start + 2) :: lineEnds (start + 2) text
  | c :: text =>
    if isLineEnd c then (start + 1) :: lineEnds (start + 1) text else lineEnds (start + 1) text

theorem isLineEnd_iff {c : Char} : isLineEnd c = true ↔ c = '\n' ∨ c = '\r' := by
  simp [isLineEnd]

theorem lt_of_mem_lineEnds {start : Nat} {text : List Char} {stop : Nat}
    (h : stop ∈ lineEnds start text) : start < stop := by
  fun_induction lineEnds start text with
  | case1 => cases h
  | case2 start text ih =>
    obtain rfl | h := List.mem_cons.1 h
    · omega
    · exact Nat.lt_trans (by omega) (ih h)
  | case3 start c text hpair hend ih =>
    obtain rfl | h := List.mem_cons.1 h
    · omega
    · exact Nat.lt_of_succ_lt (ih h)
  | case4 start c text hpair hend ih => exact Nat.lt_of_succ_lt (ih h)

namespace Position

/-- The position of an offset: its line is one more than the number of line terminators that end at
it or before it, and its column is the number of characters since the last of these. -/
def ofOffset (source : List Char) (offset : Nat) : Position :=
  let ends := (lineEnds 0 source).filter (· ≤ offset)
  ⟨1 + ends.length, offset - ends.getLastD 0⟩

/-- The position of an offset in a text that starts at the offset `start` and the position `p`,
where `ends` are the ends of the line terminators between the two. -/
def past (p : Position) (start : Nat) (ends : List Nat) (offset : Nat) : Position :=
  match ends.getLast? with
  | none => ⟨p.line, p.column + (offset - start)⟩
  | some last => ⟨p.line + ends.length, offset - last⟩

theorem past_cons (p : Position) (start stop : Nat) (ends : List Nat) (offset : Nat) :
    p.past start (stop :: ends) offset = past ⟨p.line + 1, 0⟩ stop ends offset := by
  cases h : ends.getLast? with
  | none =>
    rw [List.getLast?_eq_none_iff] at h
    simp [past, h]
  | some last =>
    simp only [past, List.getLast?_cons, h, List.length_cons, Option.getD_some]
    rw [Nat.add_right_comm, Nat.add_assoc]

theorem filter_lineEnds_of_le {start offset : Nat} (text : List Char) (h : offset ≤ start) :
    (lineEnds start text).filter (· ≤ offset) = [] := by
  rw [List.filter_eq_nil_iff]
  intro stop hstop
  have hlt := lt_of_mem_lineEnds hstop
  simp only [decide_eq_true_eq]
  omega

/-- Counting on from a position finds the same lines and columns as the list of line ends. -/
theorem advance_eq_past (p : Position) (start : Nat) {text : List Char} {count : Nat}
    (h : count ≤ text.length) :
    p.advance count text =
      p.past start ((lineEnds start text).filter (· ≤ start + count)) (start + count) := by
  fun_induction lineEnds start text generalizing p count with
  | case1 start =>
    obtain rfl := Nat.le_zero.1 h
    simp [advance, past]
  | case2 start text ih =>
    rcases count with _ | _ | count
    · rw [List.filter_cons_of_neg (by simp), filter_lineEnds_of_le text (by omega)]
      simp [advance, past]
    · -- between the two characters the line goes on
      rw [List.filter_cons_of_neg (by simp), filter_lineEnds_of_le text (by omega)]
      simp [advance, next, past]
    · have hcount : count ≤ text.length := by
        simp only [List.length_cons] at h
        omega
      have hoffset : start + (count + 2) = start + 2 + count := by omega
      rw [hoffset, List.filter_cons_of_pos (by simp), past_cons, ← ih _ hcount]
      simp [advance, next]
  | case3 start c text hpair hend ih =>
    cases count with
    | zero =>
      rw [List.filter_cons_of_neg (by simp), filter_lineEnds_of_le text (by omega)]
      simp [advance, past]
    | succ count =>
      have hoffset : start + (count + 1) = start + 1 + count := by omega
      have hnext : p.next c text.head? = ⟨p.line + 1, 0⟩ := by
        obtain rfl | rfl := isLineEnd_iff.1 hend
        · simp [next]
        · cases text with
          | nil => simp [next]
          | cons d text =>
            have hd : d ≠ '\n' := fun hd => hpair text rfl (hd ▸ rfl)
            simp [next, hd]
      rw [hoffset, List.filter_cons_of_pos (by simp), past_cons, advance, hnext,
        ih _ (Nat.le_of_succ_le_succ h)]
  | case4 start c text hpair hend ih =>
    cases count with
    | zero =>
      rw [filter_lineEnds_of_le text (by omega)]
      simp [advance, past]
    | succ count =>
      have hoffset : start + (count + 1) = start + 1 + count := by omega
      have hnext : p.next c text.head? = ⟨p.line, p.column + 1⟩ := by
        rw [isLineEnd_iff, not_or] at hend
        simp [next, hend]
      rw [advance, hnext, ih _ (Nat.le_of_succ_le_succ h), hoffset, past, past]
      -- one column further, or behind the same line end
      split
      · have hcolumn : p.column + 1 + (start + 1 + count - (start + 1)) =
            p.column + (start + 1 + count - start) := by omega
        exact congrArg (Position.mk p.line) hcolumn
      · rfl

/-- A lexer that starts at the origin counts the positions of the offsets. -/
theorem advance_origin {source : List Char} {offset : Nat} (h : offset ≤ source.length) :
    origin.advance offset source = ofOffset source offset := by
  rw [advance_eq_past origin 0 h, Nat.zero_add, past, ofOffset, List.getLastD_eq_getLast?]
  split
  · next hlast =>
    rw [hlast, List.getLast?_eq_none_iff.1 hlast]
    simp [origin]
  · next hlast => simp [hlast, origin]

example : ofOffset "a\r\nb".toList 2 = ⟨1, 2⟩ ∧ ofOffset "a\r\nb".toList 3 = ⟨2, 0⟩ := by decide

/-! ## Positions grow with offsets -/

/-- A position before another one. -/
instance : LT Position where
  lt p q := p.line < q.line ∨ p.line = q.line ∧ p.column < q.column

theorem lt_def {p q : Position} :
    p < q ↔ p.line < q.line ∨ p.line = q.line ∧ p.column < q.column := Iff.rfl

instance (p q : Position) : Decidable (p < q) := decidable_of_iff' _ lt_def

theorem not_le {p q : Position} : ¬ p ≤ q ↔ q < p := by
  rw [le_def, lt_def]
  omega

theorem ofOffset_lt {source : List Char} {i j : Nat} (h : i < j) (hj : j ≤ source.length) :
    ofOffset source i < ofOffset source j := by
  rw [← advance_origin hj, ← advance_origin (Nat.le_of_lt (Nat.lt_of_lt_of_le h hj)), ← not_le]
  exact not_advance_le _ h hj

theorem ofOffset_le {source : List Char} {i j : Nat} (h : i ≤ j) (hj : j ≤ source.length) :
    ofOffset source i ≤ ofOffset source j := by
  obtain rfl | hlt := Nat.eq_or_lt_of_le h
  · exact le_refl _
  · have hbefore := ofOffset_lt hlt hj
    rw [lt_def] at hbefore
    rw [le_def]
    omega

/-- A position is that of one offset. -/
theorem ofOffset_inj {source : List Char} {i j : Nat} (hi : i ≤ source.length)
    (hj : j ≤ source.length) (h : ofOffset source i = ofOffset source j) : i = j := by
  have hirrefl (p : Position) : ¬ p < p := by
    rw [lt_def]
    omega
  obtain hlt | heq | hlt := Nat.lt_trichotomy i j
  · exact absurd (h ▸ ofOffset_lt hlt hj) (hirrefl _)
  · exact heq
  · exact absurd (h ▸ ofOffset_lt hlt hi) (hirrefl _)

end Position

/-! ## Where pieces stand -/

section Pieces

variable {position : Position} {text : List Char}
variable {before after : List Piece} {p : Piece} {t : Token}

theorem pieces_eq_cons (h : pieces position text = p :: after) :
    ∃ s rest, Segment.first? text = some (s, rest) ∧
      p = s.toPiece ⟨position, position.advance s.text.length text⟩ ∧
      after = pieces (position.advance s.text.length text) rest := by
  cases hfirst : Segment.first? text with
  | none =>
    rw [pieces_of_none hfirst] at h
    cases h
  | some first =>
    rw [pieces_of_some hfirst] at h
    obtain ⟨hp, hafter⟩ := List.cons.inj h
    exact ⟨first.1, first.2, rfl, hp.symm, hafter.symm⟩

/-- A piece is made of a segment at the place that the pieces before it lead to. -/
theorem exists_segment (h : pieces position text = before ++ p :: after) :
    ∃ s : Segment, p = s.toPiece ⟨position.advance (before.flatMap Piece.text).length text,
      position.advance (before.flatMap Piece.text ++ p.text).length text⟩ := by
  induction before generalizing position text with
  | nil =>
    obtain ⟨s, rest, -, hp, -⟩ := pieces_eq_cons h
    have htext : p.text = s.text := by rw [hp, Segment.toPiece]
    refine ⟨s, ?_⟩
    rw [htext]
    exact hp
  | cons q before ih =>
    obtain ⟨s, rest, hfirst, rfl, htail⟩ := pieces_eq_cons h
    obtain ⟨segment, hp⟩ := ih htail.symm
    have hadvance (count : Nat) : position.advance (s.text.length + count) text =
        (position.advance s.text.length text).advance count rest := by
      rw [← first?_append hfirst, Position.advance_append]
    refine ⟨segment, ?_⟩
    simp only [List.flatMap_cons, List.append_assoc, List.length_append, Segment.toPiece, hadvance]
      at hp ⊢
    exact hp

/-- A token has the place of its piece. -/
theorem span_of_pieces (h : pieces position text = before ++ p :: after) (ht : p.token? = some t) :
    t.span = ⟨position.advance (before.flatMap Piece.text).length text,
      position.advance (before.flatMap Piece.text ++ p.text).length text⟩ := by
  obtain ⟨⟨_ | _, word⟩, hp⟩ := exists_segment h
  · rw [hp] at ht
    cases ht
    rfl
  · rw [hp] at ht
    cases ht

/-- A gap has the place where its piece starts. -/
theorem position_of_pieces {g : Gap} (h : pieces position text = before ++ p :: after)
    (hg : p.gap? = some g) :
    g.position = position.advance (before.flatMap Piece.text).length text := by
  obtain ⟨⟨_ | _, word⟩, hp⟩ := exists_segment h
  · rw [hp] at hg
    cases hg
  · rw [hp] at hg
    cases hg
    rfl

end Pieces

namespace Piece

/-- Where a piece starts, as its token or its gap says. -/
def start (p : Piece) : Position :=
  match p.made with
  | .inl token => token.span.start
  | .inr gap => gap.position

/-- `p.Occupies source i j` says that a piece is the text of a script from the offset `i` to the
offset `j`, and that its token or its gap has the positions of these. -/
structure Occupies (p : Piece) (source : List Char) (i j : Nat) : Prop where
  text : source.extract i j = p.text
  span : ∀ token, p.token? = some token → token.span = ⟨.ofOffset source i, .ofOffset source j⟩
  position : ∀ gap, p.gap? = some gap → gap.position = .ofOffset source i

theorem Occupies.start_eq {p : Piece} {source : List Char} {i j : Nat} (h : p.Occupies source i j) :
    p.start = .ofOffset source i := by
  obtain ⟨text, token | gap⟩ := p
  · show token.span.start = _
    rw [h.span token rfl]
  · exact h.position gap rfl

end Piece

section Offsets

variable {source : List Char} {before after : List Piece} {p : Piece}

/-- The pieces before a piece and the piece itself are the front of the script. -/
theorem flatMap_pieces_eq (h : pieces .origin source = before ++ p :: after) :
    source = before.flatMap Piece.text ++ (p.text ++ after.flatMap Piece.text) := by
  rw [← flatMap_pieces .origin source, h, List.flatMap_append, List.flatMap_cons]

theorem length_pieces_le (h : pieces .origin source = before ++ p :: after) :
    (before.flatMap Piece.text).length + p.text.length ≤ source.length := by
  rw [flatMap_pieces_eq h, List.length_append, List.length_append]
  omega

/-- A piece occupies the text behind the pieces before it. -/
theorem occupies_of_pieces (h : pieces .origin source = before ++ p :: after) :
    p.Occupies source (before.flatMap Piece.text).length
      ((before.flatMap Piece.text).length + p.text.length) := by
  have hstop := length_pieces_le h
  refine ⟨?_, ?_, ?_⟩
  · rw [flatMap_pieces_eq h, List.extract_eq_take_drop, Nat.add_sub_cancel_left, List.drop_left,
      List.take_left]
  · intro token ht
    rw [span_of_pieces h ht, List.length_append, Position.advance_origin hstop,
      Position.advance_origin (Nat.le_of_add_right_le hstop)]
  · intro gap hg
    rw [position_of_pieces h hg, Position.advance_origin (Nat.le_of_add_right_le hstop)]

/-- The pieces behind a piece start where it ends or later. -/
theorem le_start_of_mem {q : Piece} (h : pieces .origin source = before ++ p :: after)
    (hq : q ∈ after) :
    Position.ofOffset source ((before.flatMap Piece.text).length + p.text.length) ≤ q.start := by
  obtain ⟨between, others, rfl⟩ := List.append_of_mem hq
  have hsplit : pieces .origin source = (before ++ p :: between) ++ q :: others := by
    rw [h, List.append_assoc, List.cons_append]
  rw [(occupies_of_pieces hsplit).start_eq]
  apply Position.ofOffset_le
  · rw [List.flatMap_append, List.flatMap_cons, List.length_append, List.length_append]
    omega
  · exact Nat.le_of_add_right_le (length_pieces_le hsplit)

end Offsets

/-- Calls of `Lexer.next` cut a script into pieces whose tokens and gaps stand at the positions of
the offsets between which they lie. Positions grow with offsets. So no piece has an empty span, the
spans follow each other without overlap, and a span is that of one stretch of the script. -/
theorem pieces_at_offsets (source : String) :
    ∃ tokens last, (Lexer.ofSource source).Pulls tokens last ∧
      ∃ pieces : List Piece, pieces.flatMap Piece.text = source.toList ∧
        pieces.filterMap Piece.token? = tokens ∧
        pieces.filterMap Piece.gap? = last.gaps.toList ∧
        (∀ before p after, pieces = before ++ p :: after →
          ∃ i j, i = (before.flatMap Piece.text).length ∧ j = i + p.text.length ∧
            p.Occupies source.toList i j ∧
            Position.ofOffset source.toList i < .ofOffset source.toList j ∧
            ∀ q ∈ after, Position.ofOffset source.toList j ≤ q.start) ∧
        (∀ i j, i < j → j ≤ source.length →
          Position.ofOffset source.toList i < .ofOffset source.toList j) ∧
        (∀ i j i' j', i ≤ source.length → j ≤ source.length → i' ≤ source.length →
          j' ≤ source.length → Position.ofOffset source.toList i = .ofOffset source.toList i' →
          Position.ofOffset source.toList j = .ofOffset source.toList j' →
          source.toList.extract i j = source.toList.extract i' j') := by
  obtain ⟨tokens, last, hpulls⟩ := (Lexer.ofSource source).exists_pulls
  obtain ⟨htokens, hgaps⟩ := hpulls.pieces_eq
  refine ⟨tokens, last, hpulls, (Lexer.ofSource source).pieces, flatMap_pieces .origin _, htokens,
    hgaps, ?_, ?_, ?_⟩
  · intro before p after h
    refine ⟨_, _, rfl, rfl, occupies_of_pieces h, ?_, fun q hq => le_start_of_mem h hq⟩
    have hmem : p ∈ pieces .origin source.toList := by
      rw [show pieces .origin source.toList = before ++ p :: after from h]
      simp
    have hne := List.length_pos_iff.2 (pieces_faithful .origin source.toList p hmem).1
    exact Position.ofOffset_lt (Nat.lt_add_of_pos_right hne) (length_pieces_le h)
  · intro i j hij hj
    exact Position.ofOffset_lt hij hj
  · intro i j i' j' hi hj hi' hj' hstart hstop
    rw [Position.ofOffset_inj hi hi' hstart, Position.ofOffset_inj hj hj' hstop]

end ScriptLint
