import ScriptLint.Proofs.Grammar.ExpressionComplete
import ScriptLint.Proofs.Grammar.StatementReading

/-!
# Scripts that follow the rules are read

The converse of `ScriptLint.Proofs.Grammar.StatementReading` for scripts that write every
terminator out. A statement is followed by the next one, by the brace around it, or by what its
rule asks for behind it, and no statement takes any of these for a part of its own. By induction on
the levels the productions that open a nesting level are complete (`nested_complete`), and so is
the parser of programs (`program_complete`).
-/

namespace ScriptLint

open Cursor (Never)

variable {levels count : Nat} {c m c' : Cursor} {n : Node} {ns : List Node} {items : List Item}

theorem ReadsItems.terminator_iff :
    ReadsItems Never levels (.terminator :: items) c ns c' ↔
      c.kind? = some (.punctuator .semicolon) ∧ ReadsItems Never levels items c.advance ns c' := by
  constructor
  · intro h
    cases h with
    | semicolon hkind hrest => exact ⟨hkind, hrest⟩
    | implied _ hnever _ => exact hnever.elim
  · rintro ⟨hkind, hrest⟩
    exact .semicolon hkind hrest

section Levels

variable {implied : Cursor → Prop} {allowIn opening closed : Bool}

/-- A statement takes a level. It is read by a rule of its own, or it is a block. -/
theorem Reads.statement_cases (h : Reads implied levels (.statement closed) c n c') :
    ∃ inner, levels = inner + 1 ∧
      ((∃ form items ns, Phrase (.statement closed) form items ∧
        ReadsItems implied inner items c ns c' ∧ n = Node.build form ⟨c.here, c'.lastEnd⟩ ns) ∨
      Reads implied inner .block c n c') := by
  cases h with
  | @plain inner _ form items _ _ ns _ hphrase hitems _ =>
    exact ⟨inner, rfl, .inl ⟨form, items, ns, hphrase, hitems, rfl⟩⟩
  | through hthrough hinner =>
    cases hthrough
    exact ⟨_, rfl, .inr hinner⟩

theorem Reads.program_cases (h : Reads implied levels .program c n c') :
    ∃ count ns, ReadsItems implied levels (Item.parts .element count) c ns c' ∧
      n = Node.build .program ⟨c.here, c'.lastEnd⟩ ns := by
  cases h with
  | through hthrough _ => cases hthrough
  | @plain _ _ _ _ _ _ ns _ hphrase hitems _ =>
    cases hphrase with
    | program count => exact ⟨count, ns, hitems, rfl⟩

/-- A block takes a level. -/
theorem Reads.block_cases (h : Reads implied levels .block c n c') :
    ∃ inner count ns, levels = inner + 1 ∧
      ReadsItems implied inner
        (.mark .leftCurly :: (Item.parts .element count ++ [.mark .rightCurly])) c ns c' ∧
      n = Node.build .compoundStatement ⟨c.here, c'.lastEnd⟩ ns := by
  cases h with
  | through hthrough _ => cases hthrough
  | @plain inner _ _ _ _ _ ns _ hphrase hitems _ =>
    cases hphrase with
    | compoundStatement count => exact ⟨inner, count, ns, rfl, hitems, rfl⟩

/-- An expression without commas takes a level where it stands on its own. -/
theorem Reads.of_item (h : Reads implied levels (.expression (.item allowIn opening)) c n c') :
    ∃ inner, levels = inner + 1 ∧
      Reads implied inner (.expression (.plain 1 allowIn opening)) c n c' := by
  have hadmits : (Slot.item allowIn opening).admits n.form = true →
      (Slot.plain 1 allowIn opening).admits n.form = true ∧ n.form.rank ≠ 0 := by
    intro h
    exact ⟨h, Nat.ne_of_gt (Slot.admits_iff.1 h).1⟩
  exact h.reslot hadmits rfl (Nat.le_add_left 1 15) (Nat.le_add_left 1 15) rfl rfl

/-- An operand takes a level behind its operator. -/
theorem Reads.of_operand {target : Bool}
    (h : Reads implied levels (.expression (.operand target)) c n c') :
    ∃ inner, levels = inner + 1 ∧
      Reads implied inner (.expression (.plain 13 true false)) c n c' := by
  have hadmits : (Slot.operand target).admits n.form = true →
      (Slot.plain 13 true false).admits n.form = true ∧ n.form.rank ≠ 0 := by
    intro h
    obtain ⟨hrank, hin, hopening, _⟩ := Slot.admits_iff.1 h
    exact ⟨Slot.admits_iff.2 ⟨hrank, hin, hopening, rfl⟩,
      Nat.ne_of_gt (Nat.lt_of_lt_of_le (Nat.zero_lt_succ 12) hrank)⟩
  exact h.reslot hadmits rfl (Nat.le_add_left 13 3) (by decide) rfl rfl

end Levels

/-- A case of a `switch` ends before the next one and before the brace. -/
def Cursor.EndsCase (c : Cursor) : Prop :=
  c.kind? = some (.keyword .caseKw) ∨ c.kind? = some (.keyword .defaultKw) ∨
    c.kind? = some (.punctuator .rightCurly)

theorem Cursor.EndsCase.closes {closed : Bool} (h : c.EndsCase) : c.Closes closed := by
  obtain h | h | h := h
  · exact ⟨Cursor.kind?_ne h (by decide), fun _ => Cursor.kind?_ne h (by decide)⟩
  · exact ⟨Cursor.kind?_ne h (by decide), fun _ => Cursor.kind?_ne h (by decide)⟩
  · exact ⟨Cursor.kind?_ne h (by decide), fun _ => Cursor.kind?_ne h (by decide)⟩

namespace Cursor.Closes

variable {closed : Bool} {kind : TokenKind}

/-- Every statement ends before a token that continues none. -/
theorem of_kind (h : c.kind? = some kind) (hfinally : kind ≠ .keyword .finallyKw)
    (helse : kind ≠ .keyword .elseKw) : c.Closes closed :=
  ⟨Cursor.kind?_ne h hfinally, fun _ => Cursor.kind?_ne h helse⟩

/-- Every statement ends where another one starts. -/
theorem of_reads {implied : Cursor → Prop} (h : Reads implied levels .element c n c') :
    c.Closes closed :=
  ⟨h.kind?_ne rfl, fun _ => h.kind?_ne rfl⟩

end Cursor.Closes

namespace Grammar

open ScriptLint.Parser

variable {g : Nested} {place : Place} {allowIn closed : Bool}

/-! ## Lists -/

/-- Items one after the other, where it is known what stands before and behind each of them. -/
theorem repeated_complete {item : Parser (Option Node)} {Between : Cursor → Prop}
    (h : ReadsItems Never levels (Item.parts place count) c ns m)
    (hstarts : ∀ {c n m}, Reads Never levels place c n m → Between c)
    (hitem : ∀ {c n m}, Reads Never levels place c n m → Between m → item c = .ok (some n) m)
    (hend : Between m) (hstop : item m = .ok none c') : Collects item c ns c' := by
  induction count generalizing c ns with
  | zero =>
    obtain ⟨rfl, rfl⟩ := ReadsItems.nil_iff.1 h
    exact .done hstop
  | succ count ih =>
    obtain ⟨first, others, m', rfl, hfirst, hothers⟩ := ReadsItems.part_iff.1 h
    -- behind an item stands the next one or the end of the list
    have hbetween : Between m' := by
      cases count with
      | zero =>
        obtain ⟨_, rfl⟩ := ReadsItems.nil_iff.1 hothers
        exact hend
      | succ count =>
        obtain ⟨_, _, _, _, hnext, _⟩ := ReadsItems.part_iff.1 hothers
        exact hstarts hnext
    exact .more (hitem hfirst hbetween) (ih hothers)

/-- The tokens ahead are a budget for the items of a list. -/
theorem parts_length (h : ReadsItems Never levels (Item.parts place count) c ns c')
    (hplace : place.isInner = true) : ns.length ≤ c.rest.length :=
  Nat.le_of_add_right_le (h.length_le (Item.isInner_parts hplace count))

section Productions

variable (hg : g.Complete levels)
include hg

/-! ## Functions, blocks and declarations -/

/-- The declaration of a function. -/
theorem functionDeclaration_complete {name : String}
    (h : ReadsItems Never levels
      [.keyword .functionKw, .word (.name name), .part .parameters, .part .block] c ns c') :
    functionDeclaration g c =
      .ok (Node.build (.functionDeclaration name) ⟨c.here, c'.lastEnd⟩ ns) c' := by
  obtain ⟨hfunction, h⟩ := ReadsItems.keyword_iff.1 h
  obtain ⟨t, ht, hname, h⟩ := ReadsItems.word_iff.1 h
  simp only [functionDeclaration, here_bind, bind_eq_ok, expect_eq_ok, name_eq_ok]
  exact ⟨(), _, ⟨hfunction, rfl⟩, name, _, ⟨t, ht, hname, rfl⟩, functionOf_complete hg h⟩

/-- The only statement that starts with `function` is the declaration of one. -/
theorem functionDeclaration_of_statement (h : Reads Never levels (.statement closed) c n c')
    (hfunction : c.kind? = some (.keyword .functionKw)) : functionDeclaration g c = .ok n c' := by
  cases h with
  | through hthrough hinner =>
    cases hthrough
    exact absurd hfunction (hinner.kind?_ne rfl)
  | @plain inner _ _ _ _ _ _ _ hphrase hitems _ =>
    have hkeyword : ∀ {keyword others ns},
        ReadsItems Never inner (.keyword keyword :: others) c ns c' → keyword = .functionKw := by
      intro keyword others ns hitems
      have hkind := (ReadsItems.keyword_iff.1 hitems).1
      rw [hfunction] at hkind
      cases hkind
      rfl
    -- nearly all other statements start with a keyword of their own
    cases hphrase with
    | functionStatement _ name =>
      exact functionDeclaration_complete hg (hitems.mono (Nat.le_succ inner))
    | emptyStatement =>
      exact absurd hfunction (Cursor.kind?_ne (ReadsItems.mark_iff.1 hitems).1 nofun)
    | expressionStatement =>
      obtain ⟨_, _, _, _, hvalue, _⟩ := ReadsItems.part_iff.1 hitems
      exact absurd hfunction (hvalue.kind?_ne rfl)
    | variableStatement _ declaration =>
      obtain ⟨t, ht, hdeclaration, _⟩ := ReadsItems.word_iff.1 hitems
      rw [Cursor.kind?_of_head ht, Option.some_inj] at hfunction
      have hdeclaration : DeclarationKind.ofKind? t.kind = some declaration := hdeclaration
      rw [hfunction] at hdeclaration
      cases hdeclaration
    | _ => cases hkeyword hitems

/-- A function declaration or a statement. -/
theorem sourceElement_complete (h : Reads Never levels .element c n c')
    (hcloses : c'.Closes false) : sourceElement g c = .ok n c' := by
  by_cases hfunction : c.kind? = some (.keyword .functionKw)
  · rw [sourceElement, check_pos hfunction]
    cases h with
    | through hthrough hinner =>
      cases hthrough
      exact functionDeclaration_of_statement hg hinner hfunction
    | plain _ hphrase hitems _ =>
      cases hphrase with
      | functionDeclaration name => exact functionDeclaration_complete hg hitems
  · rw [sourceElement, check_neg hfunction]
    cases h with
    | through hthrough hinner =>
      cases hthrough
      exact hg.statement hinner hcloses
    | plain _ hphrase hitems _ =>
      cases hphrase with
      | functionDeclaration name => exact absurd (ReadsItems.keyword_iff.1 hitems).1 hfunction

/-- A member of a block. -/
theorem blockMember_complete (h : Reads Never levels .element c n c') (hcloses : c'.Closes false) :
    blockMember g c = .ok (some n) c' := by
  have hcurly : c.kind? ≠ some (.punctuator .rightCurly) := h.kind?_ne rfl
  have hrest : c.rest.isEmpty = false := h.isEmpty_rest (by simp)
  rw [blockMember, check_neg hcurly, atEnd_bind, hrest, if_neg Bool.false_ne_true]
  exact bind_eq_ok.2 ⟨n, c', sourceElement_complete hg h hcloses, rfl⟩

/-- Statements in braces. -/
theorem block_complete (h : Reads Never (levels + 1) .block c n c') : block g c = .ok n c' := by
  obtain ⟨inner, count, ns, hlevels, hitems, rfl⟩ := h.block_cases
  obtain rfl := Nat.succ.inj hlevels
  simp only [ReadsItems.mark_iff, ReadsItems.append_iff, ReadsItems.nil_iff] at hitems
  obtain ⟨hopen, body, _, m, rfl, hbody, hclose, rfl, rfl⟩ := hitems
  have hstop : blockMember g m = .ok none m := by
    rw [blockMember, check_pos hclose]
    rfl
  have hcollects := repeated_complete hbody Cursor.Closes.of_reads
    (fun h hcloses => blockMember_complete hg h hcloses)
    (.of_kind hclose (by decide) (by decide)) hstop
  have hcollect := collect_complete hcollects (parts_length hbody rfl)
  simp only [block, here_bind, bind_eq_ok, expect_eq_ok, List.append_nil]
  exact ⟨(), _, ⟨hopen, rfl⟩, body, m, hcollect, (), _, ⟨hclose, rfl⟩, rfl⟩

/-- A name with an optional initial value. -/
theorem definition_complete (h : Reads Never levels (.definition allowIn) c n c')
    (hend : c'.Ends allowIn 1) : definition g allowIn c = .ok n c' := by
  cases h with
  | through hthrough _ => cases hthrough
  | plain _ hphrase hitems _ =>
    cases hphrase with
    | definition _ name =>
      simp only [ReadsItems.word_iff, ReadsItems.nil_iff] at hitems
      obtain ⟨t, ht, hname, rfl, rfl⟩ := hitems
      have hassign : c.advance.kind? ≠ some (.punctuator .assign) := by
        intro hkind
        have hnone := hend.assign
        rw [hkind] at hnone
        cases hnone
      simp only [definition, here_bind, bind_eq_ok, name_eq_ok, after?_eq_ok]
      exact ⟨name, _, ⟨t, ht, hname, rfl⟩, none, _, .inr ⟨hassign, rfl, rfl⟩, rfl⟩
    | initialized _ name =>
      simp only [ReadsItems.word_iff, ReadsItems.mark_iff, ReadsItems.part_iff,
        ReadsItems.nil_iff] at hitems
      obtain ⟨t, ht, hname, hassign, value, _, m, rfl, hvalue, rfl, rfl⟩ := hitems
      have hvalue := hg.assignment hvalue hend
      simp only [definition, here_bind, bind_eq_ok, name_eq_ok, after?_eq_ok]
      exact ⟨name, _, ⟨t, ht, hname, rfl⟩, some value, _, .inl ⟨value, hassign, hvalue, rfl⟩, rfl⟩

/-- The keyword of a declaration and its definitions. -/
theorem declarations_complete {declaration : DeclarationKind}
    (h : ReadsItems Never levels (.word (.declaration declaration) ::
      Item.separated (.definition allowIn) (count + 1)) c ns c')
    (hend : c'.Ends allowIn 0) :
    declarations g allowIn c =
      .ok (Node.build (.variableDefinitionList declaration) ⟨c.here, c'.lastEnd⟩ ns) c' := by
  obtain ⟨t, ht, hdeclaration, hdefinitions⟩ := ReadsItems.word_iff.1 h
  have hdeclaration : DeclarationKind.ofKind? t.kind = some declaration := hdeclaration
  rw [declarations, here_bind, peekKind?_bind, Cursor.kind?_of_head ht]
  simp only [Option.bind_some, hdeclaration]
  rw [advance_bind]
  have hlist := separated_complete hdefinitions rfl
    (fun h hend => definition_complete hg h hend) hend
  exact bind_eq_ok.2 ⟨ns, c', hlist, rfl⟩

omit hg in
/-- The `;` behind a statement is read. -/
theorem terminator_complete (h : c.kind? = some (.punctuator .semicolon)) :
    terminator c = .ok () c.advance :=
  terminator_eq_ok.2 (.inl ⟨h, rfl⟩)

/-- A declaration as a statement. -/
theorem variableStatement_complete {declaration : DeclarationKind}
    (h : ReadsItems Never levels (.word (.declaration declaration) ::
      (Item.separated (.definition true) (count + 1) ++ [.terminator])) c ns c') :
    variableStatement g c =
      .ok (Node.build (.variableDefinitionList declaration) ⟨c.here, c'.lastEnd⟩ ns) c' := by
  rw [← List.cons_append] at h
  simp only [ReadsItems.append_iff, ReadsItems.terminator_iff, ReadsItems.nil_iff] at h
  obtain ⟨definitions, _, m, rfl, hdefinitions, hsemicolon, rfl, rfl⟩ := h
  have hlist := declarations_complete hg hdefinitions (.of_none hsemicolon rfl)
  rw [variableStatement, here_bind, List.append_nil]
  refine bind_eq_ok.2 ⟨_, m, hlist, ?_⟩
  exact bind_eq_ok.2 ⟨(), _, hg.ending hsemicolon, rfl⟩

/-- An expression as a statement. -/
theorem expressionStatement_complete
    (h : ReadsItems Never levels [.part (.expression (.whole true true)), .terminator] c ns c') :
    expressionStatement g c = .ok (Node.build .expressionStatement ⟨c.here, c'.lastEnd⟩ ns) c' := by
  simp only [ReadsItems.part_iff, ReadsItems.terminator_iff, ReadsItems.nil_iff] at h
  obtain ⟨value, _, m, rfl, hvalue, hsemicolon, rfl, rfl⟩ := h
  have hvalue := expression_complete hg hvalue (.of_none hsemicolon rfl)
  rw [expressionStatement, here_bind]
  refine bind_eq_ok.2 ⟨value, m, hvalue, ?_⟩
  exact bind_eq_ok.2 ⟨(), _, hg.ending hsemicolon, rfl⟩

/-! ## Choices and loops -/

/-- `if` without `else`. -/
theorem ifStatement_complete
    (h : ReadsItems Never levels (.keyword .ifKw :: (Item.guard ++ [.part (.statement false)]))
      c ns c') (hcloses : c'.Closes false) :
    ifStatement g c = .ok (Node.build (.ifStatement false) ⟨c.here, c'.lastEnd⟩ ns) c' := by
  obtain ⟨_, h⟩ := ReadsItems.keyword_iff.1 h
  obtain ⟨test, _, m, rfl, htest, h⟩ := guard_complete hg h
  simp only [ReadsItems.part_iff, ReadsItems.nil_iff] at h
  obtain ⟨consequent, _, _, rfl, hconsequent, rfl, rfl⟩ := h
  have hconsequent := hg.statement hconsequent hcloses
  rw [ifStatement, here_bind, advance_bind]
  refine bind_eq_ok.2 ⟨test, m, htest, ?_⟩
  refine bind_eq_ok.2 ⟨consequent, _, hconsequent, ?_⟩
  exact bind_eq_ok.2 ⟨none, _, after?_eq_ok.2 (.inr ⟨hcloses.2 rfl, rfl, rfl⟩), rfl⟩

/-- `if` with `else`. -/
theorem ifElseStatement_complete
    (h : ReadsItems Never levels (.keyword .ifKw :: (Item.guard ++
      [.part (.statement true), .keyword .elseKw, .part (.statement closed)])) c ns c')
    (hcloses : c'.Closes closed) :
    ifStatement g c = .ok (Node.build (.ifStatement true) ⟨c.here, c'.lastEnd⟩ ns) c' := by
  obtain ⟨_, h⟩ := ReadsItems.keyword_iff.1 h
  obtain ⟨test, _, m, rfl, htest, h⟩ := guard_complete hg h
  simp only [ReadsItems.part_iff, ReadsItems.keyword_iff, ReadsItems.nil_iff] at h
  obtain ⟨consequent, _, m', rfl, hconsequent, helse, alternate, _, _, rfl, halternate, rfl,
    rfl⟩ := h
  -- a closed statement leaves the `else` behind it alone
  have hconsequent := hg.statement hconsequent ⟨Cursor.kind?_ne helse (by decide), nofun⟩
  have halternate := hg.statement halternate hcloses
  rw [ifStatement, here_bind, advance_bind]
  refine bind_eq_ok.2 ⟨test, m, htest, ?_⟩
  refine bind_eq_ok.2 ⟨consequent, m', hconsequent, ?_⟩
  exact bind_eq_ok.2 ⟨some alternate, _,
    after?_eq_ok.2 (.inl ⟨alternate, helse, halternate, rfl⟩), rfl⟩

/-- An expression in parentheses and a statement, behind a keyword. -/
theorem guarded_complete {form : Form} {keyword : Keyword}
    (h : ReadsItems Never levels
      (.keyword keyword :: (Item.guard ++ [.part (.statement closed)])) c ns c')
    (hcloses : c'.Closes closed) :
    guarded g form c = .ok (Node.build form ⟨c.here, c'.lastEnd⟩ ns) c' := by
  obtain ⟨_, h⟩ := ReadsItems.keyword_iff.1 h
  obtain ⟨head, _, m, rfl, hhead, h⟩ := guard_complete hg h
  simp only [ReadsItems.part_iff, ReadsItems.nil_iff] at h
  obtain ⟨body, _, _, rfl, hbody, rfl, rfl⟩ := h
  rw [guarded, here_bind, advance_bind]
  refine bind_eq_ok.2 ⟨head, m, hhead, ?_⟩
  exact bind_eq_ok.2 ⟨body, _, hg.statement hbody hcloses, rfl⟩

/-- A loop with its test at the end. -/
theorem doWhileStatement_complete
    (h : ReadsItems Never levels (.keyword .doKw :: .part (.statement false) ::
      .keyword .whileKw :: (Item.guard ++ [.option])) c ns c') :
    doWhileStatement g c = .ok (Node.build .doWhileStatement ⟨c.here, c'.lastEnd⟩ ns) c' := by
  simp only [ReadsItems.keyword_iff, ReadsItems.part_iff] at h
  obtain ⟨_, body, _, m, rfl, hbody, hwhile, h⟩ := h
  obtain ⟨test, _, m', rfl, htest, h⟩ := guard_complete hg h
  have hbody := hg.statement hbody (.of_kind hwhile (by decide) (by decide))
  rw [doWhileStatement, here_bind, advance_bind]
  refine bind_eq_ok.2 ⟨body, m, hbody, ?_⟩
  refine bind_eq_ok.2 ⟨(), _, expect_eq_ok.2 ⟨hwhile, rfl⟩, ?_⟩
  refine bind_eq_ok.2 ⟨test, m', htest, ?_⟩
  rw [accept_bind]
  cases h with
  | ended hsemicolon hrest =>
    obtain ⟨rfl, rfl⟩ := ReadsItems.nil_iff.1 hrest
    rw [if_pos hsemicolon]
    rfl
  | unended hsemicolon hrest =>
    obtain ⟨rfl, rfl⟩ := ReadsItems.nil_iff.1 hrest
    rw [if_neg hsemicolon]
    rfl

/-- A clause in the head of a loop, which is left out where its mark is next. -/
theorem forClause_complete {mark : Punctuator} {clause items : List Item}
    (hclause : Clause mark [.top] clause)
    (h : ReadsItems Never levels (clause ++ items) c ns c')
    (hjoin : (TokenKind.punctuator mark).joinRank? true = none)
    (hstarts : Place.top.startsWith (.punctuator mark) = false) :
    ∃ n others m, ns = n :: others ∧ forClause g (.punctuator mark) c = .ok n m ∧
      m.kind? = some (.punctuator mark) ∧ ReadsItems Never levels items m.advance others c' := by
  cases hclause with
  | hole =>
    obtain ⟨others, rfl, hmark, h⟩ := ReadsItems.hole_iff.1 h
    refine ⟨_, others, c, rfl, ?_, hmark, h⟩
    rw [forClause, check_pos hmark]
    rfl
  | part hplace =>
    obtain rfl := List.mem_singleton.1 hplace
    simp only [List.cons_append, List.nil_append, ReadsItems.part_iff, ReadsItems.mark_iff] at h
    obtain ⟨n, others, m, rfl, hn, hmark, h⟩ := h
    refine ⟨n, others, m, rfl, ?_, hmark, h⟩
    rw [forClause, check_neg (hn.kind?_ne hstarts)]
    exact expression_complete hg hn (.of_none hmark hjoin)

/-- The part of a loop with three clauses that stands behind the first of them. -/
theorem forRest_complete {test update : List Item} {start : Position} {init : Node}
    (htest : Clause .semicolon [.top] test) (hupdate : Clause .rightParen [.top] update)
    (hsemicolon : c.kind? = some (.punctuator .semicolon))
    (h : ReadsItems Never levels (test ++ (update ++ [.part (.statement closed)])) c.advance ns c')
    (hcloses : c'.Closes closed) :
    forRest g start init c =
      .ok (Node.build .forStatement ⟨start, c'.lastEnd⟩ (init :: ns)) c' := by
  obtain ⟨test, _, m, rfl, htest, hsecond, h⟩ := forClause_complete hg htest h rfl rfl
  obtain ⟨update, _, m', rfl, hupdate, hclose, h⟩ := forClause_complete hg hupdate h rfl rfl
  simp only [ReadsItems.part_iff, ReadsItems.nil_iff] at h
  obtain ⟨body, _, _, rfl, hbody, rfl, rfl⟩ := h
  rw [forRest]
  refine bind_eq_ok.2 ⟨(), _, expect_eq_ok.2 ⟨hsemicolon, rfl⟩, ?_⟩
  refine bind_eq_ok.2 ⟨test, m, htest, ?_⟩
  refine bind_eq_ok.2 ⟨(), _, expect_eq_ok.2 ⟨hsecond, rfl⟩, ?_⟩
  refine bind_eq_ok.2 ⟨update, m', hupdate, ?_⟩
  refine bind_eq_ok.2 ⟨(), _, expect_eq_ok.2 ⟨hclose, rfl⟩, ?_⟩
  exact bind_eq_ok.2 ⟨body, _, hg.statement hbody hcloses, rfl⟩

/-- The part of a loop over the members of an object that stands behind `in`. -/
theorem forInRest_complete {start : Position} {left : Node}
    (h : ReadsItems Never levels [.part .top, .mark .rightParen, .part (.statement closed)] c ns c')
    (hcloses : c'.Closes closed) :
    forInRest g start left c =
      .ok (Node.build .forInStatement ⟨start, c'.lastEnd⟩ (left :: ns)) c' := by
  simp only [ReadsItems.part_iff, ReadsItems.mark_iff, ReadsItems.nil_iff] at h
  obtain ⟨right, _, m, rfl, hright, hclose, body, _, _, rfl, hbody, rfl, rfl⟩ := h
  have hright := expression_complete hg hright (.of_none hclose rfl)
  rw [forInRest]
  refine bind_eq_ok.2 ⟨right, m, hright, ?_⟩
  refine bind_eq_ok.2 ⟨(), _, expect_eq_ok.2 ⟨hclose, rfl⟩, ?_⟩
  exact bind_eq_ok.2 ⟨body, _, hg.statement hbody hcloses, rfl⟩

/-- A declaration in the head of a loop. -/
theorem loopDeclarations_complete (h : Reads Never levels .declarations c n c')
    (hend : c'.Ends false 0) : declarations g false c = .ok n c' := by
  cases h with
  | through hthrough _ => cases hthrough
  | plain _ hphrase hitems _ =>
    cases hphrase with
    | declarations declaration count => exact declarations_complete hg hitems hend

omit hg in
/-- What a loop over the members of an object stores into is an expression of its head. -/
theorem whole_of_loopTarget (h : Reads Never levels (.expression .loopTarget) c n c') :
    Reads Never levels (.expression (.whole false false)) c n c' := by
  have hadmits : Slot.loopTarget.admits n.form = true →
      (Slot.whole false false).admits n.form = true ∧ n.form.rank ≠ 0 := by
    intro h
    obtain ⟨hrank, hin, hopening, _⟩ := Slot.admits_iff.1 h
    have hrank : 15 ≤ n.form.rank := hrank
    exact ⟨Slot.admits_iff.2 ⟨Nat.zero_le _, hin, hopening, rfl⟩, by omega⟩
  obtain ⟨_, rfl, hread⟩ := h.reslot hadmits rfl (by decide) (by decide) rfl rfl
  exact hread

omit hg in
/-- No expression starts with the keyword of a declaration. -/
theorem declaration_eq_none {s : Slot} (h : Reads Never levels (.expression s) c n c') :
    (c.kind?.bind DeclarationKind.ofKind?).isSome = false := by
  obtain ⟨kind, hkind, hstarts⟩ := h.starts (by simp)
  have hstarts := (Place.startsWith_expression_iff.1 hstarts).1
  rw [hkind, Option.bind_some]
  unfold DeclarationKind.ofKind?
  split
  case h_4 => rfl
  all_goals cases hstarts

omit hg in
/-- A declaration starts with its keyword. -/
theorem declaration_isSome (h : Reads Never levels .declarations c n c') :
    (c.kind?.bind DeclarationKind.ofKind?).isSome = true := by
  obtain ⟨kind, hkind, hstarts⟩ := h.starts nofun
  rw [hkind, Option.bind_some]
  exact hstarts

/-- A loop with three clauses. -/
theorem forStatement_complete {init test update : List Item}
    (hinit : Clause .semicolon [.declarations, .expression (.whole false false)] init)
    (htest : Clause .semicolon [.top] test) (hupdate : Clause .rightParen [.top] update)
    (h : ReadsItems Never levels (.keyword .forKw :: .mark .leftParen ::
      (init ++ (test ++ (update ++ [.part (.statement closed)])))) c ns c')
    (hcloses : c'.Closes closed) :
    forStatement g c = .ok (Node.build .forStatement ⟨c.here, c'.lastEnd⟩ ns) c' := by
  simp only [ReadsItems.keyword_iff, ReadsItems.mark_iff] at h
  obtain ⟨_, hopen, h⟩ := h
  rw [forStatement, here_bind, advance_bind]
  refine bind_eq_ok.2 ⟨(), _, expect_eq_ok.2 ⟨hopen, rfl⟩, ?_⟩
  cases hinit with
  | hole =>
    obtain ⟨_, rfl, hsemicolon, h⟩ := ReadsItems.hole_iff.1 h
    rw [check_pos hsemicolon, emptyExpression_bind]
    exact forRest_complete hg htest hupdate hsemicolon h hcloses
  | part hplace =>
    simp only [List.cons_append, List.nil_append, ReadsItems.part_iff, ReadsItems.mark_iff] at h
    obtain ⟨init, _, m, rfl, hinit, hsemicolon, h⟩ := h
    have hin : m.kind? ≠ some (.keyword .inKw) := Cursor.kind?_ne hsemicolon (by decide)
    have hend : m.Ends false 0 := .of_none hsemicolon rfl
    obtain rfl | hplace := List.mem_cons.1 hplace
    · have hne : c.advance.advance.kind? ≠ some (.punctuator .semicolon) := hinit.kind?_ne rfl
      rw [check_neg hne, peekKind?_bind, declaration_isSome hinit, if_pos rfl]
      refine bind_eq_ok.2 ⟨init, m, loopDeclarations_complete hg hinit hend, ?_⟩
      rw [accept_neg hin]
      exact forRest_complete hg htest hupdate hsemicolon h hcloses
    · obtain rfl := List.mem_singleton.1 hplace
      have hne : c.advance.advance.kind? ≠ some (.punctuator .semicolon) := hinit.kind?_ne rfl
      rw [check_neg hne, peekKind?_bind, declaration_eq_none hinit, if_neg Bool.false_ne_true]
      refine bind_eq_ok.2 ⟨init, m, expression_complete hg hinit hend, ?_⟩
      rw [check_neg hin]
      exact forRest_complete hg htest hupdate hsemicolon h hcloses

/-- A loop over the members of an object. -/
theorem forInStatement_complete {place : Place}
    (hplace : place ∈ [.declarations, .expression .loopTarget])
    (h : ReadsItems Never levels [.keyword .forKw, .mark .leftParen, .part place, .keyword .inKw,
      .part .top, .mark .rightParen, .part (.statement closed)] c ns c')
    (hcloses : c'.Closes closed) :
    forStatement g c = .ok (Node.build .forInStatement ⟨c.here, c'.lastEnd⟩ ns) c' := by
  simp only [ReadsItems.keyword_iff, ReadsItems.mark_iff] at h
  obtain ⟨_, hopen, h⟩ := h
  obtain ⟨left, _, m, rfl, hleft, hrest⟩ := ReadsItems.part_iff.1 h
  obtain ⟨hin, hright⟩ := ReadsItems.keyword_iff.1 hrest
  -- where `in` is no operator it ends the clause
  have hend : m.Ends false 0 := .of_none hin rfl
  rw [forStatement, here_bind, advance_bind]
  refine bind_eq_ok.2 ⟨(), _, expect_eq_ok.2 ⟨hopen, rfl⟩, ?_⟩
  obtain rfl | hplace := List.mem_cons.1 hplace
  · have hne : c.advance.advance.kind? ≠ some (.punctuator .semicolon) := hleft.kind?_ne rfl
    rw [check_neg hne, peekKind?_bind, declaration_isSome hleft, if_pos rfl]
    refine bind_eq_ok.2 ⟨left, m, loopDeclarations_complete hg hleft hend, ?_⟩
    rw [accept_pos hin]
    exact forInRest_complete hg hright hcloses
  · obtain rfl := List.mem_singleton.1 hplace
    have hne : c.advance.advance.kind? ≠ some (.punctuator .semicolon) := hleft.kind?_ne rfl
    have hassignable : left.isAssignable = true := hleft.serves
    rw [check_neg hne, peekKind?_bind, declaration_eq_none hleft, if_neg Bool.false_ne_true]
    refine bind_eq_ok.2 ⟨left, m, expression_complete hg (whole_of_loopTarget hleft) hend, ?_⟩
    rw [check_pos hin]
    refine bind_eq_ok.2 ⟨(), m, requireAssignable_eq_ok.2 ⟨hassignable, rfl⟩, ?_⟩
    rw [advance_bind]
    exact forInRest_complete hg hright hcloses

/-! ## Jumps and values -/

/-- `break` or `continue` with an optional label. -/
theorem jump_complete {form : Option String → Form} {keyword : Keyword} {label : Option String}
    (h : ReadsItems Never levels (.keyword keyword :: Item.jump label) c ns c') :
    jump g form c = .ok (Node.build (form label) ⟨c.here, c'.lastEnd⟩ ns) c' := by
  obtain ⟨_, h⟩ := ReadsItems.keyword_iff.1 h
  rw [jump, here_bind, advance_bind]
  cases label with
  | none =>
    simp only [Item.jump, ReadsItems.terminator_iff, ReadsItems.nil_iff] at h
    obtain ⟨hsemicolon, rfl, rfl⟩ := h
    have hlabel : label? c.advance = .ok none c.advance := by
      rw [label?, newlineBefore_bind]
      split
      · rfl
      -- on the same line the `;` is no name
      obtain ⟨t, ht, hkind⟩ := Cursor.exists_token hsemicolon
      have hname : c.advance.rest.head?.bind Token.identifier? = none := by
        rw [ht, Option.bind_some, Token.identifier?, hkind]
      exact name?_eq_ok.2 (.inr ⟨hname, rfl, rfl⟩)
    refine bind_eq_ok.2 ⟨none, _, hlabel, ?_⟩
    exact bind_eq_ok.2 ⟨(), _, hg.ending hsemicolon, rfl⟩
  | some x =>
    simp only [Item.jump, ReadsItems.sameLine_iff, ReadsItems.word_iff,
      ReadsItems.terminator_iff, ReadsItems.nil_iff] at h
    obtain ⟨hline, t, ht, hx, hsemicolon, rfl, rfl⟩ := h
    have hlabel : label? c.advance = .ok (some x) c.advance.advance := by
      rw [label?, newlineBefore_bind, hline, if_neg Bool.false_ne_true]
      exact name?_eq_ok.2 (.inl ⟨t, x, ht, hx, rfl, rfl⟩)
    refine bind_eq_ok.2 ⟨some x, _, hlabel, ?_⟩
    exact bind_eq_ok.2 ⟨(), _, hg.ending hsemicolon, rfl⟩

/-- `return` without a value. -/
theorem returnStatement_complete
    (h : ReadsItems Never levels [.keyword .returnKw, .terminator] c ns c') :
    returnStatement g c = .ok (Node.build (.returnStatement false) ⟨c.here, c'.lastEnd⟩ ns) c' := by
  simp only [ReadsItems.keyword_iff, ReadsItems.terminator_iff, ReadsItems.nil_iff] at h
  obtain ⟨_, hsemicolon, rfl, rfl⟩ := h
  have hvalue : returnValue? g c.advance = .ok none c.advance := by
    rw [returnValue?, check_pos hsemicolon]
    rfl
  rw [returnStatement, here_bind, advance_bind]
  refine bind_eq_ok.2 ⟨none, _, hvalue, ?_⟩
  exact bind_eq_ok.2 ⟨(), _, hg.ending hsemicolon, rfl⟩

/-- `return` with a value. -/
theorem returnValueStatement_complete
    (h : ReadsItems Never levels [.keyword .returnKw, .sameLine, .part .top, .terminator] c ns c') :
    returnStatement g c = .ok (Node.build (.returnStatement true) ⟨c.here, c'.lastEnd⟩ ns) c' := by
  simp only [ReadsItems.keyword_iff, ReadsItems.sameLine_iff, ReadsItems.part_iff,
    ReadsItems.terminator_iff, ReadsItems.nil_iff] at h
  obtain ⟨_, hline, value, _, m, rfl, hvalue, hsemicolon, rfl, rfl⟩ := h
  have hne : c.advance.kind? ≠ some (.punctuator .semicolon) := hvalue.kind?_ne rfl
  have hcurly : c.advance.kind? ≠ some (.punctuator .rightCurly) := hvalue.kind?_ne rfl
  have himplied : c.advance.impliesTerminator = false := by
    simp [Cursor.impliesTerminator, hcurly, hvalue.isEmpty_rest (by simp [Place.top]), hline]
  have hvalue := expression_complete hg hvalue (.of_none hsemicolon rfl)
  have hvalue? : returnValue? g c.advance = .ok (some value) m := by
    rw [returnValue?, check_neg hne, impliedTerminator_bind, himplied, if_neg Bool.false_ne_true]
    exact bind_eq_ok.2 ⟨value, m, hvalue, rfl⟩
  rw [returnStatement, here_bind, advance_bind]
  refine bind_eq_ok.2 ⟨some value, m, hvalue?, ?_⟩
  exact bind_eq_ok.2 ⟨(), _, hg.ending hsemicolon, rfl⟩

/-- `throw` with its value. -/
theorem throwStatement_complete
    (h : ReadsItems Never levels [.keyword .throwKw, .part .top, .terminator] c ns c') :
    throwStatement g c = .ok (Node.build .throwStatement ⟨c.here, c'.lastEnd⟩ ns) c' := by
  simp only [ReadsItems.keyword_iff, ReadsItems.part_iff, ReadsItems.terminator_iff,
    ReadsItems.nil_iff] at h
  obtain ⟨_, value, _, m, rfl, hvalue, hsemicolon, rfl, rfl⟩ := h
  have hvalue := expression_complete hg hvalue (.of_none hsemicolon rfl)
  rw [throwStatement, here_bind, advance_bind]
  refine bind_eq_ok.2 ⟨value, m, hvalue, ?_⟩
  exact bind_eq_ok.2 ⟨(), _, hg.ending hsemicolon, rfl⟩

/-! ## Cases and handlers -/

/-- A statement of a case. -/
theorem caseMember_complete (h : Reads Never levels .element c n c') (hcloses : c'.Closes false) :
    caseMember g c = .ok (some n) c' := by
  obtain ⟨kind, hkind, hstarts⟩ := h.starts nofun
  rw [caseMember, peekKind?_bind]
  generalize c.kind? = next at hkind ⊢
  split
  case h_1 => cases hkind
  case h_5 => exact bind_eq_ok.2 ⟨n, c', sourceElement_complete hg h hcloses, rfl⟩
  all_goals
    cases hkind
    cases hstarts

omit hg in
/-- A case ends where the next one starts and at the brace. -/
theorem caseMember_stop (h : c.EndsCase) : caseMember g c = .ok none c := by
  rw [caseMember, peekKind?_bind]
  obtain h | h | h := h
  all_goals
    rw [h]
    rfl

/-- The statements of a case. -/
theorem caseMembers_complete (h : ReadsItems Never levels (Item.parts .element count) c ns c')
    (hend : c'.EndsCase) : collect (caseMember g) c = .ok ns c' := by
  have hcollects := repeated_complete h Cursor.Closes.of_reads
    (fun h hcloses => caseMember_complete hg h hcloses) hend.closes (caseMember_stop hend)
  exact collect_complete hcollects (parts_length h rfl)

/-- A case of a `switch` with its statements. -/
theorem switchCase_complete (h : Reads Never levels .switchCase c n c') (hend : c'.EndsCase) :
    switchCase g c = .ok (some n) c' := by
  cases h with
  | through hthrough _ => cases hthrough
  | plain _ hphrase hitems _ =>
    cases hphrase with
    | switchCase count =>
      simp only [ReadsItems.keyword_iff, ReadsItems.part_iff, ReadsItems.mark_iff] at hitems
      obtain ⟨hcase, value, body, m, rfl, hvalue, hcolon, hbody⟩ := hitems
      have hvalue := expression_complete hg hvalue (.of_none hcolon rfl)
      have htest : caseTest? g c = .ok (some value) m.advance := by
        rw [caseTest?, accept_pos hcase]
        refine bind_eq_ok.2 ⟨value, m, hvalue, ?_⟩
        exact bind_eq_ok.2 ⟨(), _, expect_eq_ok.2 ⟨hcolon, rfl⟩, rfl⟩
      rw [switchCase, accept_neg (Cursor.kind?_ne hcase (by decide)), here_bind]
      refine bind_eq_ok.2 ⟨some value, _, htest, ?_⟩
      exact bind_eq_ok.2 ⟨body, c', caseMembers_complete hg hbody hend, rfl⟩
    | switchDefault count =>
      simp only [ReadsItems.keyword_iff, ReadsItems.mark_iff] at hitems
      obtain ⟨hdefault, hcolon, hbody⟩ := hitems
      have htest : caseTest? g c = .ok none c.advance.advance := by
        rw [caseTest?, accept_neg (Cursor.kind?_ne hdefault (by decide)), defaultLabel_bind,
          if_pos ⟨hdefault, hcolon⟩]
        rfl
      rw [switchCase, accept_neg (Cursor.kind?_ne hdefault (by decide)), here_bind]
      refine bind_eq_ok.2 ⟨none, _, htest, ?_⟩
      exact bind_eq_ok.2 ⟨_, c', caseMembers_complete hg hbody hend, rfl⟩

omit hg in
/-- A case starts where another one may end. -/
theorem endsCase_of_reads (h : Reads Never levels .switchCase c n c') : c.EndsCase := by
  cases h with
  | through hthrough _ => cases hthrough
  | plain _ hphrase hitems _ =>
    cases hphrase with
    | switchCase count => exact .inl (ReadsItems.keyword_iff.1 hitems).1
    | switchDefault count => exact .inr (.inl (ReadsItems.keyword_iff.1 hitems).1)

/-- A choice between cases. -/
theorem switchStatement_complete
    (h : ReadsItems Never levels (.keyword .switchKw :: (Item.guard ++
      .mark .leftCurly :: (Item.parts .switchCase count ++ [.mark .rightCurly]))) c ns c') :
    switchStatement g c = .ok (Node.build .switchStatement ⟨c.here, c'.lastEnd⟩ ns) c' := by
  obtain ⟨_, h⟩ := ReadsItems.keyword_iff.1 h
  obtain ⟨discriminant, _, m, rfl, hdiscriminant, h⟩ := guard_complete hg h
  simp only [ReadsItems.mark_iff, ReadsItems.append_iff, ReadsItems.nil_iff] at h
  obtain ⟨hopen, cases, _, m', rfl, hcases, hclose, rfl, rfl⟩ := h
  have hstop : switchCase g m' = .ok none m'.advance := by
    rw [switchCase, accept_pos hclose]
    rfl
  have hcollects := repeated_complete hcases endsCase_of_reads
    (fun h hend => switchCase_complete hg h hend) (.inr (.inr hclose)) hstop
  rw [switchStatement, here_bind, advance_bind, List.append_nil]
  refine bind_eq_ok.2 ⟨discriminant, m, hdiscriminant, ?_⟩
  refine bind_eq_ok.2 ⟨(), _, expect_eq_ok.2 ⟨hopen, rfl⟩, ?_⟩
  exact bind_eq_ok.2 ⟨cases, _, collect_complete hcollects (parts_length hcases rfl), rfl⟩

/-- The handler of a `try`. -/
theorem handler?_complete (h : Reads Never levels .handler c n c') :
    handler? g c = .ok (some n) c' := by
  cases h with
  | through hthrough _ => cases hthrough
  | plain _ hphrase hitems _ =>
    cases hphrase with
    | catchClause parameter =>
      simp only [ReadsItems.keyword_iff, ReadsItems.mark_iff, ReadsItems.word_iff,
        ReadsItems.part_iff, ReadsItems.nil_iff] at hitems
      obtain ⟨hcatch, hopen, t, ht, hname, hclose, body, _, _, rfl, hbody, rfl, rfl⟩ := hitems
      rw [handler?, here_bind, accept_pos hcatch]
      refine bind_eq_ok.2 ⟨(), _, expect_eq_ok.2 ⟨hopen, rfl⟩, ?_⟩
      refine bind_eq_ok.2 ⟨parameter, _, name_eq_ok.2 ⟨t, ht, hname, rfl⟩, ?_⟩
      refine bind_eq_ok.2 ⟨(), _, expect_eq_ok.2 ⟨hclose, rfl⟩, ?_⟩
      exact bind_eq_ok.2 ⟨body, _, hg.block hbody, rfl⟩

/-- The handler of a `try`, if there is one. -/
theorem handlers_complete {hasHandler : Bool}
    (h : ReadsItems Never levels (if hasHandler then [.part .handler] else []) c ns c')
    (hcatch : hasHandler = false → c.kind? ≠ some (.keyword .catchKw)) :
    ∃ handler : Option Node, handler? g c = .ok handler c' ∧ ns = handler.toList ∧
      hasHandler = handler.isSome := by
  cases hasHandler with
  | false =>
    obtain ⟨rfl, rfl⟩ := ReadsItems.nil_iff.1 h
    refine ⟨none, ?_, rfl, rfl⟩
    rw [handler?, here_bind, accept_neg (hcatch rfl)]
    rfl
  | true =>
    obtain ⟨handler, _, _, rfl, hhandler, h⟩ := ReadsItems.part_iff.1 h
    obtain ⟨rfl, rfl⟩ := ReadsItems.nil_iff.1 h
    exact ⟨some handler, handler?_complete hg hhandler, rfl, rfl⟩

/-- The finalizer of a `try`, if there is one. -/
theorem finalizers_complete {hasFinalizer : Bool}
    (h : ReadsItems Never levels (if hasFinalizer then [.keyword .finallyKw, .part .block] else [])
      c ns c') (hfinally : hasFinalizer = false → c.kind? ≠ some (.keyword .finallyKw)) :
    ∃ finalizer : Option Node, after? (.keyword .finallyKw) g.block c = .ok finalizer c' ∧
      ns = finalizer.toList ∧ hasFinalizer = finalizer.isSome := by
  cases hasFinalizer with
  | false =>
    obtain ⟨rfl, rfl⟩ := ReadsItems.nil_iff.1 h
    exact ⟨none, after?_eq_ok.2 (.inr ⟨hfinally rfl, rfl, rfl⟩), rfl, rfl⟩
  | true =>
    obtain ⟨hkind, h⟩ := ReadsItems.keyword_iff.1 h
    obtain ⟨body, _, _, rfl, hbody, h⟩ := ReadsItems.part_iff.1 h
    obtain ⟨rfl, rfl⟩ := ReadsItems.nil_iff.1 h
    exact ⟨some body, after?_eq_ok.2 (.inl ⟨body, hkind, hg.block hbody, rfl⟩), rfl, rfl⟩

/-- A block with a handler, a finalizer or both. -/
theorem tryStatement_complete {hasHandler hasFinalizer : Bool}
    (hparts : (hasHandler || hasFinalizer) = true)
    (h : ReadsItems Never levels (.keyword .tryKw :: .part .block ::
      ((if hasHandler then [.part .handler] else []) ++
        (if hasFinalizer then [.keyword .finallyKw, .part .block] else []))) c ns c')
    (hcloses : c'.Closes closed) :
    tryStatement g c =
      .ok (Node.build (.tryStatement hasHandler hasFinalizer) ⟨c.here, c'.lastEnd⟩ ns) c' := by
  simp only [ReadsItems.keyword_iff, ReadsItems.part_iff, ReadsItems.append_iff] at h
  obtain ⟨_, body, _, m, rfl, hbody, handlers, finalizers, m', rfl, hhandlers, hfinalizers⟩ := h
  -- without a handler the finalizer is next
  have hcatch : hasHandler = false → m.kind? ≠ some (.keyword .catchKw) := by
    rintro rfl
    obtain rfl : hasFinalizer = true := hparts
    obtain ⟨_, rfl⟩ := ReadsItems.nil_iff.1 hhandlers
    exact Cursor.kind?_ne (ReadsItems.keyword_iff.1 hfinalizers).1 (by decide)
  have hfinally : hasFinalizer = false → m'.kind? ≠ some (.keyword .finallyKw) := by
    rintro rfl
    obtain ⟨_, rfl⟩ := ReadsItems.nil_iff.1 hfinalizers
    exact hcloses.1
  obtain ⟨handler, hhandler, rfl, rfl⟩ := handlers_complete hg hhandlers hcatch
  obtain ⟨finalizer, hfinalizer, rfl, rfl⟩ := finalizers_complete hg hfinalizers hfinally
  have hsome : ¬ (handler.isNone = true ∧ finalizer.isNone = true) := by
    cases handler <;> cases finalizer <;> simp_all
  rw [tryStatement, here_bind, advance_bind]
  refine bind_eq_ok.2 ⟨body, m, hg.block hbody, ?_⟩
  refine bind_eq_ok.2 ⟨handler, m', hhandler, ?_⟩
  refine bind_eq_ok.2 ⟨finalizer, c', hfinalizer, ?_⟩
  rw [if_neg hsome]
  rfl

/-! ## The grammar as a whole -/

/-- A statement, which its first token tells apart from the others. -/
theorem statement_complete (h : Reads Never (levels + 1) (.statement closed) c n c')
    (hcloses : c'.Closes closed) : statement g c = .ok n c' := by
  rw [statement, peekKind?_bind]
  obtain ⟨inner, hlevels, hcases⟩ := h.statement_cases
  obtain rfl := Nat.succ.inj hlevels
  obtain ⟨form, items, ns, hphrase, hitems, rfl⟩ | hblock := hcases
  · cases hphrase with
    | emptyStatement =>
      obtain ⟨hkind, hitems⟩ := ReadsItems.mark_iff.1 hitems
      obtain ⟨rfl, rfl⟩ := ReadsItems.nil_iff.1 hitems
      rw [hkind]
      rfl
    | expressionStatement =>
      have hrun := expressionStatement_complete hg hitems
      obtain ⟨_, _, _, _, hvalue, _⟩ := ReadsItems.part_iff.1 hitems
      obtain ⟨kind, hkind, hstarts⟩ := hvalue.starts (by simp)
      generalize c.kind? = next at hkind ⊢
      split
      case h_1 => cases hkind
      case h_20 => exact hrun
      all_goals
        cases hkind
        cases hstarts
    | variableStatement _ declaration count =>
      have hrun := variableStatement_complete hg hitems
      obtain ⟨t, ht, hdeclaration, _⟩ := ReadsItems.word_iff.1 hitems
      have hdeclaration : DeclarationKind.ofKind? t.kind = some declaration := hdeclaration
      rw [Cursor.kind?_of_head ht]
      generalize t.kind = kind at hdeclaration ⊢
      unfold DeclarationKind.ofKind? at hdeclaration
      split at hdeclaration
      case h_4 => cases hdeclaration
      all_goals exact hrun
    | ifStatement =>
      rw [(ReadsItems.keyword_iff.1 hitems).1]
      exact ifStatement_complete hg hitems hcloses
    | ifElseStatement =>
      rw [(ReadsItems.keyword_iff.1 hitems).1]
      exact ifElseStatement_complete hg hitems hcloses
    | whileStatement | withStatement =>
      rw [(ReadsItems.keyword_iff.1 hitems).1]
      exact guarded_complete hg hitems hcloses
    | doWhileStatement =>
      rw [(ReadsItems.keyword_iff.1 hitems).1]
      exact doWhileStatement_complete hg hitems
    | forStatement _ hinit htest hupdate =>
      rw [(ReadsItems.keyword_iff.1 hitems).1]
      exact forStatement_complete hg hinit htest hupdate hitems hcloses
    | forInStatement _ hleft =>
      rw [(ReadsItems.keyword_iff.1 hitems).1]
      exact forInStatement_complete hg hleft hitems hcloses
    | continueStatement | breakStatement =>
      rw [(ReadsItems.keyword_iff.1 hitems).1]
      exact jump_complete hg hitems
    | returnStatement =>
      rw [(ReadsItems.keyword_iff.1 hitems).1]
      exact returnStatement_complete hg hitems
    | returnValueStatement =>
      rw [(ReadsItems.keyword_iff.1 hitems).1]
      exact returnValueStatement_complete hg hitems
    | throwStatement =>
      rw [(ReadsItems.keyword_iff.1 hitems).1]
      exact throwStatement_complete hg hitems
    | switchStatement =>
      rw [(ReadsItems.keyword_iff.1 hitems).1]
      exact switchStatement_complete hg hitems
    | tryStatement _ hasHandler hasFinalizer hparts =>
      rw [(ReadsItems.keyword_iff.1 hitems).1]
      exact tryStatement_complete hg hparts hitems hcloses
    | debuggerStatement =>
      simp only [ReadsItems.keyword_iff, ReadsItems.terminator_iff, ReadsItems.nil_iff] at hitems
      obtain ⟨hkind, hsemicolon, rfl, rfl⟩ := hitems
      rw [hkind]
      exact bind_eq_ok.2 ⟨_, _, rfl, bind_eq_ok.2 ⟨(), _, rfl, bind_eq_ok.2 ⟨(), _,
        hg.ending hsemicolon, rfl⟩⟩⟩
    | functionStatement =>
      rw [(ReadsItems.keyword_iff.1 hitems).1]
      exact functionDeclaration_complete hg hitems
  · obtain ⟨kind, hkind, hstarts⟩ := hblock.starts (by simp)
    rw [hkind, eq_of_beq hstarts]
    exact hg.block hblock

end Productions

/-- The productions that open a nesting level read all that the rules allow within the levels that
are left. -/
theorem nested_complete (levels : Nat) : (nested levels).Complete levels := by
  induction levels with
  | zero =>
    -- where no level is left the rules allow nothing
    refine
      { ending := terminator_complete
        statement := fun h _ => ?_
        block := fun h => ?_
        assignment := fun h _ => ?_
        unary := fun h _ => ?_
        construction := nofun }
    · obtain ⟨_, hzero, _⟩ := h.statement_cases
      cases hzero
    · obtain ⟨_, _, _, hzero, _⟩ := h.block_cases
      cases hzero
    · obtain ⟨_, hzero, _⟩ := h.of_item
      cases hzero
    · obtain ⟨_, hzero, _⟩ := h.of_operand
      cases hzero
  | succ levels hg =>
    refine
      { ending := terminator_complete
        statement := fun h hcloses => statement_complete hg h hcloses
        block := fun h => block_complete hg h
        assignment := fun h hend => ?_
        unary := fun h hend => ?_
        construction := fun hlevels h => ?_ }
    · obtain ⟨_, hlevels, hread⟩ := h.of_item
      obtain rfl := Nat.succ.inj hlevels
      exact assignment_complete hg hread hend
    · obtain ⟨_, hlevels, hread⟩ := h.of_operand
      obtain rfl := Nat.succ.inj hlevels
      exact unary_complete hg hread hend
    · obtain rfl := Nat.succ.inj hlevels
      exact construction_complete hg h

/-- A member of a program. -/
theorem programMember_complete (h : Reads Never maxNesting .element c n c')
    (hcloses : c'.Closes false) : programMember outermost c = .ok (some n) c' := by
  rw [programMember, atEnd_bind, h.isEmpty_rest (by simp), if_neg Bool.false_ne_true]
  exact bind_eq_ok.2 ⟨n, c', sourceElement_complete (nested_complete maxNesting) h hcloses, rfl⟩

/-- A program that follows the rules is read, to the last token. -/
theorem program_complete (h : Reads Never maxNesting .program c n c') (hend : c'.rest = [])
    (hfresh : c.rest = [] → c.previous = none) : program c = .ok n c' := by
  obtain ⟨count, ns, hitems, rfl⟩ := h.program_cases
  have hstop : programMember outermost c' = .ok none c' := by
    rw [programMember, atEnd_bind, hend]
    rfl
  have hnone : c'.kind? = none := by
    rw [Cursor.kind?, hend]
    rfl
  have hcloses : c'.Closes false := ⟨by simp [hnone], fun _ => by simp [hnone]⟩
  have hcollects := repeated_complete hitems Cursor.Closes.of_reads
    (fun h hcloses => programMember_complete h hcloses) hcloses hstop
  have hcollect := collect_complete hcollects (parts_length hitems rfl)
  rw [program, programOf]
  refine bind_eq_ok.2 ⟨c.here, c, programStart_eq hfresh, ?_⟩
  exact bind_eq_ok.2 ⟨ns, c', hcollect, rfl⟩

end Grammar

end ScriptLint
