import ScriptLint.Proofs.Grammar.Lockstep
import ScriptLint.Proofs.Grammar.StatementUniform
import ScriptLint.Proofs.Grammar.Yield

/-!
# Layout

What the places of tokens have to do with the tree. The grammar sees of them only whether a line
ends between two tokens. So two scripts with the same tokens and the same line breaks give the same
tree or the same violation (`outline_eq_of_layout`). A line break that stands neither behind
`return`, `break` or `continue` nor before `++` or `--` can only end a statement: to add some keeps
the tree, and to remove some keeps it or leaves a statement without its `;` (`tree_of_breaks`).

In both cases the two scripts are read side by side, and the two cursors stand at the same index all
the time.
-/

namespace ScriptLint

open ScriptLint.Parser

/-- Tokens of the same kind and with the same value. -/
def Token.Same (t u : Token) : Prop := t.kind = u.kind ∧ t.value = u.value

instance (t u : Token) : Decidable (t.Same u) := inferInstanceAs (Decidable (_ ∧ _))

/-- Whether a line ends between the tokens at `i` and `i + 1`. -/
def breaksAt (tokens : List Token) (i : Nat) : Bool :=
  match tokens[i]?, tokens[i + 1]? with
  | some t, some u => t.span.stop.line < u.span.start.line
  | _, _ => false

/-- A line break between the tokens at `i` and `i + 1` means more than the end of a statement. -/
def restrictedAt (tokens : List Token) (i : Nat) : Bool :=
  tokens[i]?.any (fun t => t.kind.endsWithLine) || tokens[i + 1]?.any (fun u => u.kind.isUpdate)

/-- Behind the last token there is no line break. -/
theorem breaksAt_eq_false {tokens : List Token} {i : Nat} (h : tokens.length ≤ i) :
    breaksAt tokens i = false := by
  rw [breaksAt, List.getElem?_eq_none h]

/-- `us` has the tokens and the line breaks of `ts`. -/
structure SameLayout (ts us : List Token) : Prop where
  same : List.Forall₂ Token.Same ts us
  breaks (i : Nat) : breaksAt ts i = breaksAt us i

/-- `us` has the tokens and the line breaks of `ts`, and maybe more line breaks that can only end a
statement. -/
structure AddsBreaks (ts us : List Token) : Prop where
  same : List.Forall₂ Token.Same ts us
  kept (i : Nat) : breaksAt ts i = true → breaksAt us i = true
  added (i : Nat) : breaksAt us i = true → breaksAt ts i = false → restrictedAt ts i = false

section Decide

variable {ts us : List Token}

/-- Layouts are compared up to the last token. -/
instance : Decidable (SameLayout ts us) :=
  decidable_of_iff (List.Forall₂ Token.Same ts us ∧
    ∀ i < ts.length, breaksAt ts i = breaksAt us i) <| by
  refine ⟨fun h => ⟨h.1, fun i => ?_⟩, fun h => ⟨h.same, fun i _ => h.breaks i⟩⟩
  by_cases hi : i < ts.length
  · exact h.2 i hi
  · have hts := Nat.le_of_not_lt hi
    rw [breaksAt_eq_false hts, breaksAt_eq_false (h.1.length_eq ▸ hts)]

instance : Decidable (AddsBreaks ts us) :=
  decidable_of_iff (List.Forall₂ Token.Same ts us ∧ ∀ i < ts.length,
    (breaksAt ts i = true → breaksAt us i = true) ∧
    (breaksAt us i = true → breaksAt ts i = false → restrictedAt ts i = false)) <| by
  refine ⟨fun h => ⟨h.1, fun i hbreak => ?_, fun i hbreak => ?_⟩,
    fun h => ⟨h.same, fun i _ => ⟨h.kept i, h.added i⟩⟩⟩
  · by_cases hi : i < ts.length
    · exact (h.2 i hi).1 hbreak
    · rw [breaksAt_eq_false (Nat.le_of_not_lt hi)] at hbreak
      cases hbreak
  · by_cases hi : i < ts.length
    · exact (h.2 i hi).2 hbreak
    · rw [breaksAt_eq_false (h.1.length_eq ▸ Nat.le_of_not_lt hi)] at hbreak
      cases hbreak

end Decide

/-- What a parser makes of tokens, without places: the tree or the violation, and how many tokens it
took. -/
def Parser.outline (parser : Parser Node) (tokens : List Token) : Except SyntaxError Node × Nat :=
  let run := parser.run (.ofTokens tokens)
  ((run.1.map Node.unlocated).mapError SyntaxError.unlocated,
    (significant tokens).length - run.2.rest.length)

/-! ## Cursors at an index -/

namespace Cursor

/-- The place before the token at an index. -/
def atIndex (tokens : List Token) : Nat → Cursor
  | 0 => ⟨none, tokens⟩
  | i + 1 => ⟨tokens[i]?, tokens.drop (i + 1)⟩

variable {tokens : List Token} {i : Nat}

theorem rest_atIndex : (atIndex tokens i).rest = tokens.drop i := by
  cases i <;> rfl

theorem sight_atIndex : (atIndex tokens i).sight = (tokens.map Token.unlocated)[i]? := by
  rw [sight, rest_atIndex, List.head?_drop, List.getElem?_map]

theorem advance_atIndex (h : i < tokens.length) :
    (atIndex tokens i).advance = atIndex tokens (i + 1) := by
  have hdrop : (atIndex tokens i).rest = tokens[i] :: tokens.drop (i + 1) := by
    rw [rest_atIndex, List.drop_eq_getElem_cons h]
  rw [advance, hdrop, atIndex, List.getElem?_eq_getElem h]

theorem advance_atEnd (h : tokens.length ≤ i) : (atIndex tokens i).advance = atIndex tokens i := by
  have hdrop : (atIndex tokens i).rest = [] := by
    rw [rest_atIndex, List.drop_eq_nil_of_le h]
  rw [advance, hdrop]

theorem newlineBefore_atIndex : (atIndex tokens (i + 1)).newlineBefore = breaksAt tokens i := by
  rw [breaksAt, ← List.head?_drop (i := i + 1), newlineBefore, atIndex]
  cases tokens[i]? <;> cases tokens.drop (i + 1) <;> rfl

end Cursor

/-! ## Reading two scripts side by side -/

/-- The comparison of two scripts at the same index of both. -/
def Comparison.alongside (ts us : List Token) (lenient : Prop) (excused : SyntaxError → Prop) :
    Comparison where
  related c d := ∃ i ≤ ts.length, c = .atIndex ts i ∧ d = .atIndex us i
  lenient := lenient
  excused := excused

theorem Parser.terminator_eq (c : Cursor) :
    terminator c =
      if c.kind? = some (.punctuator .semicolon) then .ok () c.advance
      else if c.impliesTerminator = true then .ok () c
      else .error (c.violation "';'") c := by
  rw [terminator, accept_bind]
  split
  · rfl
  · rw [if_neg Bool.false_ne_true, impliedTerminator_bind]
    split <;> rfl

/-- At the end of a statement two scripts may differ in a line break, if the comparison allows for
what comes of it. -/
theorem Comparison.terminator_agree {C : Comparison} {c d : Cursor} (hrel : C.related c d)
    (hadvance : C.related c.advance d.advance) (hsight : c.sight = d.sight)
    (hbreak : c.newlineBefore = d.newlineBefore ∨ C.lenient ∧ (c.newlineBefore = true →
      d.newlineBefore = true ∨ ∀ found p, C.excused (.unexpectedToken found "';'" p))) :
    C.Agree Eq (terminator c) (terminator d) := by
  have hkind : c.kind? = d.kind? := by rw [c.kind?_eq, d.kind?_eq, hsight]
  have hempty : c.rest.isEmpty = d.rest.isEmpty := by rw [c.isEmpty_eq, d.isEmpty_eq, hsight]
  rw [terminator_eq, terminator_eq, hkind]
  split
  · exact ⟨Setting.consistent_of_rel fun _ _ => rfl, hadvance⟩
  rw [Cursor.impliesTerminator, Cursor.impliesTerminator, hkind, hempty]
  cases hclosed : d.kind? == some (.punctuator .rightCurly) || d.rest.isEmpty with
  | true => exact ⟨Setting.consistent_of_rel fun _ _ => rfl, hrel⟩
  | false =>
    rw [Bool.false_or, Bool.false_or]
    cases hc : c.newlineBefore with
    | true =>
      cases hd : d.newlineBefore with
      | true => exact ⟨Setting.consistent_of_rel fun _ _ => rfl, hrel⟩
      | false =>
        obtain heq | ⟨hlenient, hexcused⟩ := hbreak
        · simp [hc, hd] at heq
        · obtain h | hexcused := hexcused hc
          · simp [hd] at h
          · -- tokens are left, so the violation is a token
            refine ⟨hlenient, ?_⟩
            rw [Cursor.violation]
            cases hrest : d.rest with
            | nil => simp [hrest] at hclosed
            | cons u rest => exact hexcused _ _
    | false =>
      cases hd : d.newlineBefore with
      | true =>
        obtain heq | ⟨hlenient, -⟩ := hbreak
        · simp [hc, hd] at heq
        · exact hlenient
      | false => exact .inr ⟨violation_unlocated hsight _, hrel⟩

section Lawful

variable {ts us : List Token} {lenient : Prop} {excused : SyntaxError → Prop}

theorem alongside_lawful (hsame : ts.map Token.unlocated = us.map Token.unlocated)
    (hrestricted : ∀ i, restrictedAt ts i = true → breaksAt ts i = breaksAt us i)
    (hbreak : ∀ i, breaksAt ts i = breaksAt us i ∨ lenient ∧ (breaksAt ts i = true →
      breaksAt us i = true ∨ ∀ found p, excused (.unexpectedToken found "';'" p))) :
    (Comparison.alongside ts us lenient excused).Lawful := by
  have hlength : ts.length = us.length := by simpa using congrArg List.length hsame
  have hsight (i : Nat) : (Cursor.atIndex ts i).sight = (Cursor.atIndex us i).sight := by
    rw [Cursor.sight_atIndex, Cursor.sight_atIndex, hsame]
  have hadvance {c d : Cursor} (h : (Comparison.alongside ts us lenient excused).related c d) :
      (Comparison.alongside ts us lenient excused).related c.advance d.advance := by
    obtain ⟨i, hi, rfl, rfl⟩ := h
    by_cases hlt : i < ts.length
    · exact ⟨i + 1, hlt, Cursor.advance_atIndex hlt, Cursor.advance_atIndex (hlength ▸ hlt)⟩
    · exact ⟨i, hi, Cursor.advance_atEnd (Nat.le_of_not_lt hlt),
        Cursor.advance_atEnd (hlength ▸ Nat.le_of_not_lt hlt)⟩
  constructor
  case length =>
    rintro _ _ ⟨i, hi, rfl, rfl⟩
    rw [Cursor.rest_atIndex, Cursor.rest_atIndex, List.length_drop, List.length_drop, hlength]
  case sight =>
    rintro _ _ ⟨i, hi, rfl, rfl⟩
    exact hsight i
  case advance => exact hadvance
  case beforeUpdate =>
    rintro _ _ t ⟨_ | i, hi, rfl, rfl⟩ ht hupdate
    · rfl
    · rw [Cursor.newlineBefore_atIndex, Cursor.newlineBefore_atIndex]
      rw [Cursor.sight_atIndex, List.getElem?_map, Option.map_eq_some_iff] at ht
      obtain ⟨u, hu, rfl⟩ := ht
      refine hrestricted i ?_
      rw [restrictedAt, hu, Option.any_some, show u.kind.isUpdate = true from hupdate, Bool.or_true]
  case behindKeyword =>
    rintro _ _ t ⟨i, hi, rfl, rfl⟩ ht hkeyword
    rw [Cursor.sight_atIndex, List.getElem?_map, Option.map_eq_some_iff] at ht
    obtain ⟨u, hu, rfl⟩ := ht
    have hlt : i < ts.length := (List.getElem?_eq_some_iff.1 hu).1
    rw [Cursor.advance_atIndex hlt, Cursor.advance_atIndex (hlength ▸ hlt),
      Cursor.newlineBefore_atIndex, Cursor.newlineBefore_atIndex]
    refine hrestricted i ?_
    rw [restrictedAt, hu, Option.any_some, show u.kind.endsWithLine = true from hkeyword,
      Bool.true_or]
  case ending =>
    rintro _ _ hrel
    have hadvanced := hadvance hrel
    obtain ⟨i, hi, rfl, rfl⟩ := hrel
    refine Comparison.terminator_agree ⟨i, hi, rfl, rfl⟩ hadvanced (hsight i) ?_
    cases i with
    | zero => exact .inl rfl
    | succ i =>
      rw [Cursor.newlineBefore_atIndex, Cursor.newlineBefore_atIndex]
      exact hbreak i

end Lawful

/-! ## The same layout -/

/-- Tokens that are the same one by one are the same without their places. -/
theorem map_unlocated {ts us : List Token} (h : List.Forall₂ Token.Same ts us) :
    ts.map Token.unlocated = us.map Token.unlocated := by
  induction h with
  | nil => rfl
  | @cons t u ts us htu _ ih =>
    have hunlocated : t.unlocated = u.unlocated := congrArg₂ Token.nowhere htu.1 htu.2
    rw [List.map_cons, List.map_cons, hunlocated, ih]

theorem ofTokens_eq (tokens : List Token) :
    Cursor.ofTokens tokens = .atIndex (significant tokens) 0 := rfl

theorem program_agree {C : Comparison} (hC : C.Lawful) {ts us : List Token}
    (h : C.related (.ofTokens ts) (.ofTokens us)) :
    C.Agree Node.Alike (Grammar.program (.ofTokens ts)) (Grammar.program (.ofTokens us)) := by
  rw [Grammar.program, Grammar.programOf_eq _ rfl, Grammar.programOf_eq _ rfl]
  exact (Grammar.programFrom_uniform (Grammar.nestedWith_uniform .sideBySide _) _).agree hC rfl h

theorem topExpression_agree {C : Comparison} (hC : C.Lawful) (allowIn : Bool) {ts us : List Token}
    (h : C.related (.ofTokens ts) (.ofTokens us)) :
    C.Agree Node.Alike (Grammar.topExpression allowIn (.ofTokens ts))
      (Grammar.topExpression allowIn (.ofTokens us)) :=
  (Grammar.expression_uniform (Grammar.nestedWith_uniform .sideBySide _) allowIn _).agree hC rfl h

/-- Runs that agree without leniency have the same outline. -/
theorem outline_eq_of_agree {ts us : List Token} {parser : Parser Node}
    (hlength : (significant ts).length = (significant us).length)
    (h : (Comparison.alongside (significant ts) (significant us) False fun _ => False).Agree
      Node.Alike (parser (.ofTokens ts)) (parser (.ofTokens us))) :
    parser.outline ts = parser.outline us := by
  have htaken {c d : Cursor} (hrel : (Comparison.alongside (significant ts) (significant us) False
      fun _ => False).related c d) : c.rest.length = d.rest.length := by
    obtain ⟨i, -, rfl, rfl⟩ := hrel
    rw [Cursor.rest_atIndex, Cursor.rest_atIndex, List.length_drop, List.length_drop, hlength]
  rw [Parser.outline, Parser.outline, hlength, Parser.run, Parser.run]
  revert h
  cases parser (.ofTokens ts) with
  | ok n c =>
    cases parser (.ofTokens us) with
    | ok m d =>
      rintro ⟨hnodes, hrel⟩
      have hnode : n.unlocated = m.unlocated := (hnodes false true).1
      simp only [htaken hrel, Except.map, hnode]
    | error e d => exact fun h => h.1.elim
  | error e c =>
    cases parser (.ofTokens us) with
    | ok m d => exact False.elim
    | error f d =>
      rintro (h | ⟨herror, hrel⟩)
      · exact h.elim
      · simp only [htaken hrel, Except.map, Except.mapError, herror]

/-- Where tokens stand matters only for the line breaks between them: scripts with the same tokens
and the same line breaks have the same tree, or the same violation at the same token. -/
theorem outline_eq_of_layout {ts us : List Token}
    (h : SameLayout (significant ts) (significant us)) :
    Grammar.program.outline ts = Grammar.program.outline us ∧
      ∀ allowIn, (Grammar.topExpression allowIn).outline ts =
        (Grammar.topExpression allowIn).outline us := by
  have hlawful : (Comparison.alongside (significant ts) (significant us) False
      fun _ => False).Lawful :=
    alongside_lawful (map_unlocated h.same) (fun i _ => h.breaks i) fun i => .inl (h.breaks i)
  have hstart : (Comparison.alongside (significant ts) (significant us) False
      fun _ => False).related (.ofTokens ts) (.ofTokens us) :=
    ⟨0, Nat.zero_le _, ofTokens_eq ts, ofTokens_eq us⟩
  exact ⟨outline_eq_of_agree h.same.length_eq (program_agree hlawful hstart), fun allowIn =>
    outline_eq_of_agree h.same.length_eq (topExpression_agree hlawful allowIn hstart)⟩

/-- A comment that holds a line break breaks the line as well, so `return` gives nothing back. -/
theorem outline_eq_of_layout_comment :
    let identifier (name : String) := Node.build (.identifier name) .nowhere []
    let tree := Node.build .program .nowhere
      [.build (.ifStatement false) .nowhere
        [identifier "a", .build (.returnStatement false) .nowhere []],
      .build .expressionStatement .nowhere [identifier "b"]]
    SameLayout (significant (tokenize "if (a) return\nb"))
        (significant (tokenize "if(a)/* x */return /*\n*/ b")) ∧
      Grammar.program.outline (tokenize "if (a) return\nb") = (.ok tree, 6) ∧
      Grammar.program.outline (tokenize "if(a)/* x */return /*\n*/ b") = (.ok tree, 6) := by
  intro identifier tree
  have hlayout : SameLayout (significant (tokenize "if (a) return\nb"))
      (significant (tokenize "if(a)/* x */return /*\n*/ b")) := by decide +kernel
  have houtline : Grammar.program.outline (tokenize "if (a) return\nb") = (.ok tree, 6) := by
    decide +kernel
  exact ⟨hlayout, houtline, (outline_eq_of_layout hlayout).1 ▸ houtline⟩

/-! ## Line breaks that come and go -/

/-- What is restricted does not depend on places. -/
theorem restrictedAt_eq {ts us : List Token} (h : ts.map Token.unlocated = us.map Token.unlocated)
    (i : Nat) : restrictedAt ts i = restrictedAt us i := by
  have hany (p : TokenKind → Bool) (tokens : List Token) (i : Nat) :
      tokens[i]?.any (fun t => p t.kind) =
        (tokens.map Token.unlocated)[i]?.any fun t => p t.kind := by
    rw [List.getElem?_map]
    cases tokens[i]? <;> rfl
  rw [restrictedAt, restrictedAt, hany, hany _ ts, hany _ us, hany _ us, h]

/-- If a line break is added, it is not restricted, so where it would be nothing changes. -/
theorem AddsBreaks.eq_of_restricted {ts us : List Token} (h : AddsBreaks ts us) {i : Nat}
    (hi : restrictedAt ts i = true) : breaksAt ts i = breaksAt us i := by
  cases hts : breaksAt ts i with
  | true => exact (h.kept i hts).symm
  | false =>
    cases hus : breaksAt us i with
    | false => rfl
    | true =>
      rw [h.added i hus hts] at hi
      cases hi

/-- A script next to one that has a tree. -/
theorem tree_of_agree {ts us : List Token} {root : Node} {excused : SyntaxError → Prop}
    (h : parseTokens ts = .ok root)
    (hlawful : (Comparison.alongside (significant ts) (significant us) True excused).Lawful) :
    (∃ root', parseTokens us = .ok root' ∧ root'.unlocated = root.unlocated) ∨
      ∃ e, parseTokens us = .error e ∧ excused e := by
  have hagree := program_agree hlawful ⟨0, Nat.zero_le _, ofTokens_eq ts, ofTokens_eq us⟩
  simp only [parseTokens, Parser.run] at h ⊢
  revert h hagree
  cases Grammar.program (.ofTokens ts) with
  | error e c =>
    intro h
    cases h
  | ok n c =>
    intro h
    cases h
    cases Grammar.program (.ofTokens us) with
    | ok m d =>
      rintro ⟨hnodes, -⟩
      exact .inl ⟨m, rfl, (hnodes true false).1⟩
    | error e d =>
      rintro ⟨-, hexcused⟩
      exact .inr ⟨e, rfl, hexcused⟩

/-- Line breaks that can only end a statement may be added. To remove them may also leave a
statement without its `;`. -/
theorem tree_of_breaks {ts us : List Token} {root : Node} (h : parseTokens ts = .ok root) :
    (AddsBreaks (significant ts) (significant us) →
      ∃ root', parseTokens us = .ok root' ∧ root'.unlocated = root.unlocated) ∧
    (AddsBreaks (significant us) (significant ts) →
      (∃ root', parseTokens us = .ok root' ∧ root'.unlocated = root.unlocated) ∨
        ∃ found p, parseTokens us = .error (.unexpectedToken found "';'" p)) := by
  constructor
  · intro hadds
    have hlawful : (Comparison.alongside (significant ts) (significant us) True
        fun _ => False).Lawful :=
      alongside_lawful (map_unlocated hadds.same) (fun i hi => hadds.eq_of_restricted hi)
        fun i => .inr ⟨trivial, fun hts => .inl (hadds.kept i hts)⟩
    obtain htree | ⟨_, _, hexcused⟩ := tree_of_agree h hlawful
    · exact htree
    · exact hexcused.elim
  · intro hadds
    have hsame := (map_unlocated hadds.same).symm
    have hlawful : (Comparison.alongside (significant ts) (significant us) True
        fun e => ∃ found p, e = .unexpectedToken found "';'" p).Lawful :=
      alongside_lawful hsame
        (fun i hi => (hadds.eq_of_restricted (restrictedAt_eq hsame i ▸ hi)).symm)
        fun i => .inr ⟨trivial, fun _ => .inr fun found p => ⟨found, p, rfl⟩⟩
    obtain htree | ⟨_, herror, found, p, rfl⟩ := tree_of_agree h hlawful
    · exact .inl htree
    · exact .inr ⟨found, p, herror⟩

/-- A line break before `=` is as good as none, and without the one before `z` a `;` is missing. -/
theorem tree_of_breaks_moved :
    let identifier (name : String) := Node.build (.identifier name) .nowhere []
    let tree := Node.build .program .nowhere
      [.build .expressionStatement .nowhere
        [.build (.assignmentExpression .assign) .nowhere [identifier "x", identifier "y"]],
      .build .expressionStatement .nowhere [identifier "z"]]
    AddsBreaks (significant (tokenize "x = y\nz")) (significant (tokenize "x\n= y\nz")) ∧
    AddsBreaks (significant (tokenize "x = y z")) (significant (tokenize "x = y\nz")) ∧
    (∃ root, parseTokens (tokenize "x = y\nz") = .ok root ∧ root.unlocated = tree) ∧
    (∃ root, parseTokens (tokenize "x\n= y\nz") = .ok root ∧ root.unlocated = tree) ∧
    parseTokens (tokenize "x = y z") = .error (.unexpectedToken "'z'" "';'" ⟨1, 6⟩) := by
  intro identifier tree
  have hadded : AddsBreaks (significant (tokenize "x = y\nz"))
      (significant (tokenize "x\n= y\nz")) := by decide +kernel
  have hremoved : AddsBreaks (significant (tokenize "x = y z"))
      (significant (tokenize "x = y\nz")) := by decide +kernel
  obtain ⟨root, hroot, htree⟩ := exists_tree_of_map
    (show (parseTokens (tokenize "x = y\nz")).map Node.unlocated = .ok tree by decide +kernel)
  have hmissing : parseTokens (tokenize "x = y z") =
      .error (.unexpectedToken "'z'" "';'" ⟨1, 6⟩) := by decide +kernel
  obtain ⟨root', hroot', hsame⟩ := (tree_of_breaks hroot).1 hadded
  exact ⟨hadded, hremoved, ⟨root, hroot, htree⟩, ⟨root', hroot', hsame.trans htree⟩, hmissing⟩

end ScriptLint
