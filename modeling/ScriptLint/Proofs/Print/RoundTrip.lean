import ScriptLint.Proofs.Grammar.StatementComplete
import ScriptLint.Proofs.Grammar.Yield
import ScriptLint.Proofs.Print.Fits

/-!
# Printing and parsing

Main statement: a tree that the parser gives for some tokens is given again for the canonical tokens
of the tree, up to places (`parseTokens_print`). The argument goes around once. What the parser
gives was read by the rules, what was read fits (`Reads.fits`), what fits is read again from its
words (`Fits.reads`), and the parser finds every reading that leaves no `;` out.
-/

namespace ScriptLint

/-! ## Trees without places -/

namespace Node

theorem words_eq (n : Node) (place : Place) :
    n.words place =
      if place.admits n.form then Item.spell (n.rule place) (wordsOf n.children)
      else .mark .leftParen ::
        (Item.spell (n.rule .top) (wordsOf n.children) ++ [.mark .rightParen]) := by
  cases n
  rw [words]

/-- What its place admits is printed without parentheses. -/
theorem words_of_admits {n : Node} {place : Place} (h : place.admits n.form = true) :
    n.words place = Item.spell (n.rule place) (wordsOf n.children) := by
  rw [n.words_eq, if_pos h]

/-- What its slot does not admit is printed in parentheses, and between them as anywhere else. -/
theorem words_of_not_admits {n : Node} {s : Slot} (h : s.admits n.form = false) :
    n.words (.expression s) = .mark .leftParen :: (n.words .top ++ [.mark .rightParen]) := by
  have htop : Place.top.admits n.form = true := Slot.top_admits n.form
  rw [n.words_eq, words_of_admits htop, Place.admits, h]
  rfl

/-- A node that the parser built is built again without its place. -/
theorem Built.unlocated_eq {n : Node} (h : n.Built) :
    n.unlocated = .build n.form .nowhere (unlocatedAll n.children) := by
  rw [h.eq_build, unlocated_build]
  rfl

end Node

/-! ## Cursors in printed words -/

namespace Cursor

/-- The place between two printed words. -/
def printed (previous : Option Word) (words : List Word) : Cursor :=
  ⟨previous.map Word.token, words.map Word.token⟩

variable (previous : Option Word) (words : List Word)

theorem lastEnd_printed : (printed previous words).lastEnd = .origin := by
  cases previous with
  | none => rfl
  | some w => exact congrArg Span.stop w.prints_token.span

theorem here_printed : (printed previous words).here = .origin := by
  cases words with
  | nil => exact lastEnd_printed previous []
  | cons w words => exact congrArg Span.start w.prints_token.span

/-- A canonical script is all on one line. -/
theorem newlineBefore_printed : (printed previous words).newlineBefore = false := by
  cases previous with
  | none => rfl
  | some before =>
    cases words with
    | nil => rfl
    | cons next words =>
      show decide (before.token.span.stop.line < next.token.span.start.line) = false
      rw [before.prints_token.span, next.prints_token.span]
      rfl

/-- A canonical script has no white space and no comments. -/
theorem ofTokens_printed : ofTokens (words.map Word.token) = printed none words := by
  have hfilter : (words.map Word.token).filter (fun t => !t.isTrivia) = words.map Word.token := by
    rw [List.filter_eq_self]
    intro t ht
    obtain ⟨w, _, rfl⟩ := List.mem_map.1 ht
    rw [w.prints_token.isTrivia]
    rfl
  rw [ofTokens, hfilter]
  rfl

end Cursor

/-! ## Reading printed words -/

section Printed

variable {levels : Nat} {place : Place} {form : Form} {items : List Item} {children : List Node}
  {previous last : Option Word} {words rest : List Word}

/-- A reading of printed words is a node without a place. -/
theorem Reads.of_printed (hadmits : place.admits form = true) (hphrase : Phrase place form items)
    (hitems : ReadsItems Cursor.Never levels items (.printed previous words) children
      (.printed last rest))
    (hlink : form.isLink = true → (Node.build form .nowhere children).height ≤ Parser.maxHeight) :
    Reads Cursor.Never (levels + place.charge form) place (.printed previous words)
      (.build form .nowhere children) (.printed last rest) := by
  have hspan : Span.nowhere =
      ⟨(Cursor.printed previous words).here, (Cursor.printed last rest).lastEnd⟩ := by
    rw [Cursor.here_printed, Cursor.lastEnd_printed]
    rfl
  rw [hspan] at hlink ⊢
  exact .plain hadmits hphrase hitems hlink

/-- An expression that is left out of printed words is a node without a place. -/
theorem ReadsItems.hole_printed {mark : Punctuator}
    (hitems : ReadsItems Cursor.Never levels items (.printed (some (.mark mark)) words) children
      (.printed last rest)) :
    ReadsItems Cursor.Never levels (.hole mark :: items) (.printed previous (.mark mark :: words))
      (.build .emptyExpression .nowhere [] :: children) (.printed last rest) := by
  have hspan : Span.nowhere = ⟨(Cursor.printed previous (.mark mark :: words)).here,
      (Cursor.printed previous (.mark mark :: words)).here⟩ := by
    rw [Cursor.here_printed]
    rfl
  rw [hspan]
  exact .hole rfl hitems

end Printed

/-- What stands at the place of a block is one. -/
theorem Fits.form_of_block {levels : Nat} {n : Node} (h : Fits levels .block n) :
    n.form = .compoundStatement := by
  cases h with
  | plain _ hphrase => exact hphrase.form_of_block
  | through hthrough => cases hthrough

/-- What can stand at another place is printed there as it is at its own. -/
theorem Fits.words_eq {levels cost : Nat} {place inner : Place} {n : Node}
    (h : Fits levels inner n) (hthrough : place.Through inner cost) :
    n.words place = n.words inner := by
  have hrule : n.rule place = n.rule inner := by
    cases hthrough with
    | element =>
      -- neither place has a slot or stands before an `else`, so a form has one rule at both
      unfold Node.rule
      cases n.form <;> rfl
    | block =>
      rw [Node.rule, Node.rule, h.form_of_block]
      rfl
  rw [n.words_eq, n.words_eq, hrule]
  cases hthrough <;> rfl

mutual
/-- What fits is read again from its words, with no `;` left out. -/
theorem Fits.reads {levels : Nat} {place : Place} {n : Node} :
    Fits levels place n → ∀ previous rest, ∃ last,
      Reads Cursor.Never levels place (.printed previous (n.words place ++ rest)) n.unlocated
        (.printed last rest)
  | .plain hadmits hphrase hitems hbuilt, previous, rest => by
    obtain ⟨last, hread⟩ := hitems.reads previous rest
    refine ⟨last, ?_⟩
    -- a link is as high without its place, so its height is still in bounds
    have hlink := hbuilt.height_le
    rw [← n.height_unlocated, hbuilt.unlocated_eq] at hlink
    rw [Node.words_of_admits hadmits, hbuilt.unlocated_eq]
    exact .of_printed hadmits hphrase hread hlink
  | .enclosed hadmits hserves hinner, previous, rest => by
    obtain ⟨last, hread⟩ := hinner.reads (some (.mark .leftParen)) (.mark .rightParen :: rest)
    refine ⟨some (.mark .rightParen), ?_⟩
    rw [Node.words_of_not_admits hadmits, List.cons_append, List.append_assoc]
    rw [← n.form_unlocated] at hserves
    have hclose : (Cursor.printed last (.mark .rightParen :: rest)).kind? =
        some (.punctuator .rightParen) := rfl
    exact .enclosed hserves rfl hread hclose
  | .through hthrough hinner, previous, rest => by
    obtain ⟨last, hread⟩ := hinner.reads previous rest
    refine ⟨last, ?_⟩
    rw [hinner.words_eq hthrough]
    exact .through hthrough hread

theorem FitsItems.reads {levels : Nat} {items : List Item} {ns : List Node} :
    FitsItems levels items ns → ∀ previous rest, ∃ last,
      ReadsItems Cursor.Never levels items
        (.printed previous (Item.spell items (Node.wordsOf ns) ++ rest)) (Node.unlocatedAll ns)
        (.printed last rest)
  | .nil, previous, rest => ⟨previous, .nil⟩
  | @FitsItems.word _ item _ _ hitem hitems, previous, rest => by
    cases item with
    | word w =>
      obtain ⟨last, hread⟩ := hitems.reads (some w) rest
      exact ⟨last, .word rfl w.prints_token.matches_word hread⟩
    | part => cases hitem
    | hole => cases hitem
    | terminator =>
      obtain ⟨last, hread⟩ := hitems.reads (some (.mark .semicolon)) rest
      exact ⟨last, .semicolon rfl hread⟩
    | option =>
      obtain ⟨last, hread⟩ := hitems.reads (some (.mark .semicolon)) rest
      exact ⟨last, .ended rfl hread⟩
    | sameLine =>
      obtain ⟨last, hread⟩ := hitems.reads previous rest
      exact ⟨last, .sameLine (Cursor.newlineBefore_printed _ _) hread⟩
  | @FitsItems.part _ place items n ns hn hitems, previous, rest => by
    obtain ⟨middle, hn⟩ := hn.reads previous (Item.spell items (Node.wordsOf ns) ++ rest)
    obtain ⟨last, hread⟩ := hitems.reads middle rest
    refine ⟨last, .part ?_ hread⟩
    show Reads _ _ _
      (.printed previous (n.words place ++ Item.spell items (Node.wordsOf ns) ++ rest)) _ _
    rw [List.append_assoc]
    exact hn
  | @FitsItems.hole _ mark span items ns hitems, previous, rest => by
    obtain ⟨last, hread⟩ := hitems.reads (some (.mark mark)) rest
    refine ⟨last, ?_⟩
    rw [Node.unlocatedAll, Node.unlocated_build]
    exact .hole_printed hread
end

/-- Print a tree that was parsed, and parse it again: the tree is the same, up to the places of its
nodes. -/
theorem parseTokens_print {tokens : List Token} {t : Node} (h : parseTokens tokens = .ok t) :
    parseTokens t.print = .ok t.unlocated := by
  obtain ⟨_, hread⟩ := program_reads_of_parseTokens h
  have hfits := hread.fits (.inr rfl)
  obtain ⟨last, hprinted⟩ := hfits.reads none []
  rw [List.append_nil, ← Cursor.ofTokens_printed] at hprinted
  have hprogram := Grammar.program_complete hprinted rfl fun _ => rfl
  show (Grammar.program.run (.ofTokens t.print)).1 = _
  rw [Parser.run, Node.print, hprogram]

/-- A script that is printed with other parentheses than it was written with. One pair around the
`in` is left out and so is the one around `z`, and two pairs move inwards: one to the object, with
which the statement would start, and one to the call under `new`. -/
theorem parseTokens_print_chain :
    let tokens := tokenize "for (x = ((a in b));;) (\x7b\x7d.y)(new ((f()).x)); [,(z),]"
    let printed := (Cursor.ofTokens (tokenize
      "for (x = (a in b);;) (\x7b\x7d).y(new (f()).x); [,z];")).rest.map Token.unlocated
    ∃ t, parseTokens tokens = .ok t ∧ t.print = printed ∧
      parseTokens printed = .ok t.unlocated := by
  intro tokens printed
  obtain ⟨t, ht, hprint⟩ := exists_tree_of_map
    (show (parseTokens tokens).map Node.print = .ok printed by decide +kernel)
  exact ⟨t, ht, hprint, hprint ▸ parseTokens_print ht⟩

end ScriptLint
