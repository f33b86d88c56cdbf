import ScriptLint.Proofs.Grammar.ExpressionReading

/-!
# Scripts are read by the rules

Every production of statements that gives a node has read it by the rules, if that is so of the
productions with one nesting level less. By induction on the levels the grammar as a whole reads by
the rules (`nested_sound`), and so does the parser of programs (`program_reads`) and that of
expressions (`topExpression_reads`).

A statement before an `else` that is not its own is closed: no `if` at its end lacks an `else`. The
productions do not look ahead for this. An `if` takes every `else` that follows it, so where one
follows a statement, the statement had no use for it.
-/

namespace ScriptLint.Grammar

open ScriptLint.Parser
open Cursor (Implied)

variable {g : Nested} {levels k : Nat} {c m c' : Cursor} {n : Node} {ns : List Node}
  {allowIn closed : Bool}

/-- Items one after the other, and what is known where their list ends. -/
theorem repeated_read {place : Place} {item : Parser (Option Node)} {End : Cursor → Cursor → Prop}
    (hitem : ∀ {c n? c'}, item c = .ok n? c' →
      (n? = none ∧ End c c') ∨ ∃ n, n? = some n ∧ Reads Implied levels place c n c')
    (h : Collects item c ns c') :
    ∃ m, ReadsItems Implied levels (Item.parts place ns.length) c ns m ∧ End m c' := by
  induction h with
  | done h =>
    obtain ⟨_, hend⟩ | ⟨_, hsome, _⟩ := hitem h
    · exact ⟨_, .nil, hend⟩
    · cases hsome
  | more h _ ih =>
    obtain ⟨hnone, _⟩ | ⟨n, hsome, hn⟩ := hitem h
    · cases hnone
    · cases hsome
      obtain ⟨m, hitems, hend⟩ := ih
      exact ⟨m, .part hn hitems, hend⟩

theorem defaultLabel_bind {β : Type} (f : Bool → Parser β) :
    (defaultLabel >>= f) c =
      if c.kind? = some (.keyword .defaultKw) ∧ c.advance.kind? = some (.punctuator .colon) then
        f true c.advance.advance
      else f false c := by
  show EStateM.bind defaultLabel f c = _
  unfold EStateM.bind
  obtain ⟨previous, rest⟩ := c
  match rest with
  | [] => rfl
  | [_] => simp [defaultLabel, Cursor.kind?, Cursor.advance]
  | first :: second :: _ =>
    by_cases h : first.kind = .keyword .defaultKw ∧ second.kind = .punctuator .colon
    · simp [defaultLabel, Cursor.kind?, Cursor.advance, h]
    · simp [defaultLabel, Cursor.kind?, Cursor.advance, h]

section Productions

variable (hg : g.Sound levels)
include hg

/-! ## Functions, blocks and declarations -/

/-- The declaration of a function, which is a statement too. -/
theorem functionDeclaration_reads {place : Place} (h : functionDeclaration g c = .ok n c')
    (hphrase : ∀ name, Phrase place (.functionDeclaration name)
      [.keyword .functionKw, .word (.name name), .part .parameters, .part .block])
    (hadmits : ∀ name, place.admits (.functionDeclaration name) = true)
    (hlevels : ∀ name, levels + place.charge (.functionDeclaration name) = k) :
    Reads Implied k place c n c' := by
  simp only [functionDeclaration, here_bind, bind_eq_ok, expect_eq_ok, name_eq_ok] at h
  obtain ⟨_, _, ⟨hfunction, rfl⟩, name, _, ⟨t, ht, hname, rfl⟩, h⟩ := h
  obtain ⟨ns, rfl, hitems⟩ := functionOf_reads hg h
  exact .node (hphrase name) (hadmits name) (hlevels name) rfl
    (.keyword hfunction (.word ht hname hitems))

/-- A function declaration or a statement. -/
theorem sourceElement_reads (h : sourceElement g c = .ok n c') :
    Reads Implied levels .element c n c' := by
  rw [sourceElement, check_bind] at h
  split at h
  · exact functionDeclaration_reads hg h .functionDeclaration (fun _ => rfl) fun _ => rfl
  · exact Reads.through .element (hg.statement h nofun)

/-- What a member of a block can be. -/
theorem blockMember_cases {n? : Option Node} (h : blockMember g c = .ok n? c') :
    (n? = none ∧ c = c') ∨
      ∃ member, n? = some member ∧ Reads Implied levels .element c member c' := by
  rw [blockMember, check_bind] at h
  split at h
  · obtain ⟨rfl, rfl⟩ := pure_eq_ok.1 h
    exact .inl ⟨rfl, rfl⟩
  rw [atEnd_bind] at h
  split at h
  · exact absurd h unexpected_ne_ok
  simp only [bind_eq_ok, pure_eq_ok] at h
  obtain ⟨member, _, hmember, rfl, rfl⟩ := h
  exact .inr ⟨member, rfl, sourceElement_reads hg hmember⟩

/-- Statements in braces. -/
theorem block_reads (h : block g c = .ok n c') : Reads Implied (levels + 1) .block c n c' := by
  simp only [block, here_bind, bind_eq_ok, expect_eq_ok, finish_eq_ok] at h
  obtain ⟨_, _, ⟨hopen, rfl⟩, body, m, hbody, _, _, ⟨hclose, rfl⟩, rfl, rfl⟩ := h
  obtain ⟨_, hitems, rfl⟩ := repeated_read (blockMember_cases hg) (collect_sound hbody)
  exact .node (.compoundStatement body.length) rfl rfl rfl
    (.mark hopen (hitems.append_words (.mark hclose .nil)))

/-- A name with an optional initial value. -/
theorem definition_reads (h : definition g allowIn c = .ok n c') :
    Reads Implied levels (.definition allowIn) c n c' := by
  simp only [definition, here_bind, bind_eq_ok, name_eq_ok, after?_eq_ok, finish_eq_ok] at h
  obtain ⟨x, _, ⟨t, ht, hx, rfl⟩, _, _, (⟨init, hassign, hinit, rfl⟩ | ⟨_, rfl, rfl⟩), rfl,
    rfl⟩ := h
  · have hinit := hg.assignment hinit (Cursor.opens_false _)
    exact .node (.initialized allowIn x) rfl rfl rfl (.word ht hx (.mark hassign (.single hinit)))
  · exact .node (.definition allowIn x) rfl rfl rfl (.word ht hx .nil)

/-- The keyword of a declaration and its definitions. -/
theorem declarations_read (h : declarations g allowIn c = .ok n c') :
    ∃ declaration count ns,
      n = Node.build (.variableDefinitionList declaration) ⟨c.here, c'.lastEnd⟩ ns ∧
      ReadsItems Implied levels (.word (.declaration declaration) ::
        Item.separated (.definition allowIn) (count + 1)) c ns c' := by
  rw [declarations, here_bind, peekKind?_bind] at h
  cases hdeclaration : c.kind?.bind DeclarationKind.ofKind? with
  | none =>
    rw [hdeclaration] at h
    exact absurd h unexpected_ne_ok
  | some declaration =>
    obtain ⟨t, ht, hmeaning⟩ := Cursor.exists_meaning hdeclaration
    simp only [hdeclaration, advance_bind, bind_eq_ok, finish_eq_ok] at h
    obtain ⟨definitions, m, hdefinitions, rfl, rfl⟩ := h
    obtain ⟨count, _, hitems⟩ := separated_read (definition_reads hg) hdefinitions
    exact ⟨declaration, count, _, rfl, .word ht hmeaning hitems⟩

/-- A declaration as a statement. -/
theorem variableStatement_reads (h : variableStatement g c = .ok n c') :
    Reads Implied (levels + 1) (.statement closed) c n c' := by
  simp only [variableStatement, here_bind, bind_eq_ok, finish_eq_ok] at h
  obtain ⟨list, m, hlist, _, m', hend, rfl, rfl⟩ := h
  obtain ⟨declaration, count, ns, rfl, hitems⟩ := declarations_read hg hlist
  exact .node (.variableStatement closed declaration count) rfl rfl rfl
    (hitems.append_words (.terminator (hg.ending hend)))

/-- An expression as a statement. -/
theorem expressionStatement_reads (h : expressionStatement g c = .ok n c')
    (hopens : c.Opens true) : Reads Implied (levels + 1) (.statement closed) c n c' := by
  simp only [expressionStatement, here_bind, bind_eq_ok, finish_eq_ok] at h
  obtain ⟨value, m, hvalue, _, m', hend, rfl, rfl⟩ := h
  exact .node (.expressionStatement closed) rfl rfl rfl
    (.part (expression_reads hg hvalue hopens) (.terminator (hg.ending hend)))

/-! ## Choices and loops -/

omit hg in
/-- An `if` without `else` is not followed by one, so it is no closed statement. -/
theorem not_closed (hclosed : closed = true → c.kind? = some (.keyword .elseKw))
    (hkind : c.kind? ≠ some (.keyword .elseKw)) : closed = false :=
  Bool.eq_false_iff.2 fun h => hkind (hclosed h)

/-- `if` with an optional `else`. -/
theorem ifStatement_reads (h : ifStatement g c = .ok n c')
    (hkind : c.kind? = some (.keyword .ifKw))
    (hclosed : closed = true → c'.kind? = some (.keyword .elseKw)) :
    Reads Implied (levels + 1) (.statement closed) c n c' := by
  simp only [ifStatement, here_bind, advance_bind, bind_eq_ok, after?_eq_ok, finish_eq_ok] at h
  obtain ⟨test, m, htest, consequent, m', hconsequent, _, _,
    (⟨alternate, helse, halternate, rfl⟩ | ⟨helse, rfl, rfl⟩), rfl, rfl⟩ := h
  · have hconsequent := hg.statement hconsequent fun (_ : true = true) => helse
    exact .node (.ifElseStatement closed) rfl rfl rfl
      (.keyword hkind ((guard_reads hg htest).append
        (.part hconsequent (.keyword helse (.single (hg.statement halternate hclosed))))))
  · obtain rfl := not_closed hclosed helse
    exact .node .ifStatement rfl rfl rfl
      (.keyword hkind ((guard_reads hg htest).append (.single (hg.statement hconsequent hclosed))))

/-- An expression in parentheses and a statement, behind a keyword. -/
theorem guarded_reads {form : Form} {keyword : Keyword} (h : guarded g form c = .ok n c')
    (hkind : c.kind? = some (.keyword keyword)) (hlink : form.isLink = false)
    (hphrase : Phrase (.statement closed) form
      (.keyword keyword :: (Item.guard ++ [.part (.statement closed)])))
    (hclosed : closed = true → c'.kind? = some (.keyword .elseKw)) :
    Reads Implied (levels + 1) (.statement closed) c n c' := by
  simp only [guarded, here_bind, advance_bind, bind_eq_ok, finish_eq_ok] at h
  obtain ⟨head, m, hhead, body, m', hbody, rfl, rfl⟩ := h
  exact .node hphrase rfl rfl hlink
    (.keyword hkind ((guard_reads hg hhead).append (.single (hg.statement hbody hclosed))))

/-- A loop with its test at the end. -/
theorem doWhileStatement_reads (h : doWhileStatement g c = .ok n c')
    (hkind : c.kind? = some (.keyword .doKw)) :
    Reads Implied (levels + 1) (.statement closed) c n c' := by
  simp only [doWhileStatement, here_bind, advance_bind, bind_eq_ok, expect_eq_ok,
    accept_bind] at h
  obtain ⟨body, m, hbody, _, _, ⟨hwhile, rfl⟩, test, m', htest, h⟩ := h
  have hbody := hg.statement hbody fun (h : false = true) => nomatch h
  split at h
  · next hsemicolon =>
    obtain ⟨rfl, rfl⟩ := finish_eq_ok.1 h
    exact .node (.doWhileStatement closed) rfl rfl rfl
      (.keyword hkind (.part hbody (.keyword hwhile
        ((guard_reads hg htest).append_words (.ended hsemicolon .nil)))))
  · next hsemicolon =>
    obtain ⟨rfl, rfl⟩ := finish_eq_ok.1 h
    exact .node (.doWhileStatement closed) rfl rfl rfl
      (.keyword hkind (.part hbody (.keyword hwhile
        ((guard_reads hg htest).append_words (.unended hsemicolon .nil)))))

/-- A clause in the head of a loop, which is left out where its mark is next. -/
theorem forClause_reads {mark : Punctuator} (h : forClause g (.punctuator mark) c = .ok n m)
    (hmark : m.kind? = some (.punctuator mark)) :
    ∃ items, Clause mark [.top] items ∧ ReadsItems Implied levels items c [n] m.advance := by
  rw [forClause, check_bind] at h
  split at h
  · next hnext =>
    cases h
    exact ⟨_, .hole, .hole (eq_of_beq hnext) .nil⟩
  · have hclause := expression_reads hg h (Cursor.opens_false _)
    exact ⟨_, .part (List.mem_singleton.2 rfl), .part hclause (.mark hmark .nil)⟩

/-- The part of a loop with three clauses that stands behind the first of them. -/
theorem forRest_reads {start : Cursor} {init : Node} (h : forRest g start.here init c = .ok n c')
    (hfor : start.kind? = some (.keyword .forKw))
    (hopen : start.advance.kind? = some (.punctuator .leftParen))
    (hinit : c.kind? = some (.punctuator .semicolon) → ∃ items,
      Clause .semicolon [.declarations, .expression (.whole false false)] items ∧
        ReadsItems Implied levels items start.advance.advance [init] c.advance)
    (hclosed : closed = true → c'.kind? = some (.keyword .elseKw)) :
    Reads Implied (levels + 1) (.statement closed) start n c' := by
  simp only [forRest, bind_eq_ok, expect_eq_ok, finish_eq_ok] at h
  obtain ⟨_, _, ⟨hfirst, rfl⟩, test, m, htest, _, _, ⟨hsecond, rfl⟩, update, m', hupdate, _, _,
    ⟨hclose, rfl⟩, body, m'', hbody, rfl, rfl⟩ := h
  obtain ⟨initItems, hinitClause, hinitItems⟩ := hinit hfirst
  obtain ⟨testItems, htestClause, htestItems⟩ := forClause_reads hg htest hsecond
  obtain ⟨updateItems, hupdateClause, hupdateItems⟩ := forClause_reads hg hupdate hclose
  have hbody := hg.statement hbody hclosed
  exact .node (.forStatement closed hinitClause htestClause hupdateClause) rfl rfl rfl
    (.keyword hfor (.mark hopen (hinitItems.append (htestItems.append
      (hupdateItems.append (.single hbody))))))

/-- The part of a loop over the members of an object that stands behind `in`. -/
theorem forInRest_reads {start : Cursor} {left : Node} {place : Place}
    (h : forInRest g start.here left c.advance = .ok n c')
    (hfor : start.kind? = some (.keyword .forKw))
    (hopen : start.advance.kind? = some (.punctuator .leftParen))
    (hin : c.kind? = some (.keyword .inKw))
    (hplace : place ∈ [.declarations, .expression .loopTarget])
    (hleft : Reads Implied levels place start.advance.advance left c)
    (hclosed : closed = true → c'.kind? = some (.keyword .elseKw)) :
    Reads Implied (levels + 1) (.statement closed) start n c' := by
  simp only [forInRest, bind_eq_ok, expect_eq_ok, finish_eq_ok] at h
  obtain ⟨right, m, hright, _, _, ⟨hclose, rfl⟩, body, m', hbody, rfl, rfl⟩ := h
  have hright := expression_reads hg hright (Cursor.opens_false _)
  have hbody := hg.statement hbody hclosed
  exact .node (.forInStatement closed hplace) rfl rfl rfl
    (.keyword hfor (.mark hopen (.part hleft (.keyword hin (.part hright
      (.mark hclose (.single hbody)))))))

omit hg in
/-- What a loop over the members of an object stores into. -/
theorem loopTarget_reads (h : Reads Implied levels (.expression (.whole false false)) c n c')
    (hassignable : n.isAssignable = true) :
    Reads Implied levels (.expression .loopTarget) c n c' := by
  have hserves : Slot.loopTarget.serves n.form = true := hassignable
  have hadmits : (Slot.whole false false).admits n.form = true →
      Slot.loopTarget.admits n.form = true ∧ n.form.rank ≠ 0 := by
    intro h
    obtain ⟨_, hin, hopening, _⟩ := Slot.admits_iff.1 h
    have hform := Form.le_rank_of_isAssignable hassignable
    exact ⟨Slot.admits_iff.2 ⟨hform, hin, hopening, hserves⟩, by omega⟩
  obtain ⟨_, rfl, hread⟩ := h.reslot hadmits hserves (by decide) (by decide) rfl rfl
  exact hread

/-- A loop with three clauses, or over the members of an object. -/
theorem forStatement_reads (h : forStatement g c = .ok n c')
    (hkind : c.kind? = some (.keyword .forKw))
    (hclosed : closed = true → c'.kind? = some (.keyword .elseKw)) :
    Reads Implied (levels + 1) (.statement closed) c n c' := by
  simp only [forStatement, here_bind, advance_bind, bind_eq_ok, expect_eq_ok, check_bind] at h
  obtain ⟨_, _, ⟨hopen, rfl⟩, h⟩ := h
  split at h
  · next hnext =>
    rw [emptyExpression_bind] at h
    refine forRest_reads hg h hkind hopen (fun hsemicolon => ?_) hclosed
    exact ⟨_, .hole, .hole hsemicolon .nil⟩
  rw [peekKind?_bind] at h
  split at h
  · simp only [bind_eq_ok, accept_bind] at h
    obtain ⟨init, m, hinit, h⟩ := h
    obtain ⟨declaration, count, ns, rfl, hitems⟩ := declarations_read hg hinit
    have hinit : Reads Implied levels .declarations c.advance.advance _ m :=
      .node (.declarations declaration count) rfl rfl rfl hitems
    split at h
    -- only the token behind the first clause tells the two kinds of loops apart
    · next hin =>
      exact forInRest_reads hg h hkind hopen hin (List.mem_cons_self ..) hinit hclosed
    · refine forRest_reads hg h hkind hopen (fun hsemicolon => ?_) hclosed
      exact ⟨_, .part (List.mem_cons_self ..), .part hinit (.mark hsemicolon .nil)⟩
  · simp only [bind_eq_ok, check_bind] at h
    obtain ⟨init, m, hinit, h⟩ := h
    have hinit := expression_reads hg hinit (Cursor.opens_false _)
    split at h
    · next hin =>
      simp only [bind_eq_ok, requireAssignable_eq_ok, advance_bind] at h
      obtain ⟨_, _, ⟨hassignable, rfl⟩, h⟩ := h
      exact forInRest_reads hg h hkind hopen (eq_of_beq hin)
        (List.mem_cons_of_mem _ (List.mem_cons_self ..)) (loopTarget_reads hinit hassignable)
        hclosed
    · refine forRest_reads hg h hkind hopen (fun hsemicolon => ?_) hclosed
      exact ⟨_, .part (List.mem_cons_of_mem _ (List.mem_cons_self ..)),
        .part hinit (.mark hsemicolon .nil)⟩

/-! ## Jumps and values -/

/-- `break` or `continue` with an optional label. -/
theorem jump_reads {form : Option String → Form} {keyword : Keyword}
    (h : jump g form c = .ok n c') (hkind : c.kind? = some (.keyword keyword))
    (hlink : ∀ label, (form label).isLink = false)
    (hphrase : ∀ label, Phrase (.statement closed) (form label)
      (.keyword keyword :: Item.jump label)) :
    Reads Implied (levels + 1) (.statement closed) c n c' := by
  simp only [jump, here_bind, advance_bind, bind_eq_ok, finish_eq_ok] at h
  obtain ⟨label, m, hlabel, _, m', hend, rfl, rfl⟩ := h
  have hitems : ReadsItems Implied levels (Item.jump label) c.advance [] m' := by
    rw [label?, newlineBefore_bind] at hlabel
    split at hlabel
    · obtain ⟨rfl, rfl⟩ := pure_eq_ok.1 hlabel
      exact .terminator (hg.ending hend)
    next hline =>
      obtain ⟨t, x, ht, hx, rfl, rfl⟩ | ⟨_, rfl, rfl⟩ := name?_eq_ok.1 hlabel
      · exact .sameLine (Bool.eq_false_iff.2 hline) (.word ht hx (.terminator (hg.ending hend)))
      · exact .terminator (hg.ending hend)
  exact .node (hphrase label) rfl rfl (hlink label) (.keyword hkind hitems)

/-- `return` with an optional value. -/
theorem returnStatement_reads (h : returnStatement g c = .ok n c')
    (hkind : c.kind? = some (.keyword .returnKw)) :
    Reads Implied (levels + 1) (.statement closed) c n c' := by
  simp only [returnStatement, here_bind, advance_bind, bind_eq_ok, finish_eq_ok] at h
  obtain ⟨value?, m, hvalue, _, m', hend, rfl, rfl⟩ := h
  have hbare : value? = none → c.advance = m →
      Reads Implied (levels + 1) (.statement closed) c
        (Node.build (.returnStatement value?.isSome) ⟨c.here, m'.lastEnd⟩ value?.toList) m' := by
    rintro rfl rfl
    exact .node (.returnStatement closed) rfl rfl rfl
      (.keyword hkind (.terminator (hg.ending hend)))
  rw [returnValue?, check_bind] at hvalue
  split at hvalue
  · obtain ⟨hnone, hstay⟩ := pure_eq_ok.1 hvalue
    exact hbare hnone.symm hstay
  rw [impliedTerminator_bind] at hvalue
  split at hvalue
  · obtain ⟨hnone, hstay⟩ := pure_eq_ok.1 hvalue
    exact hbare hnone.symm hstay
  next himplied =>
    simp only [bind_eq_ok, pure_eq_ok] at hvalue
    obtain ⟨value, _, hvalue, rfl, rfl⟩ := hvalue
    -- a line that ends behind `return` would have implied the terminator
    have hline : c.advance.newlineBefore = false := by
      simp only [Cursor.impliesTerminator, Bool.or_eq_true, not_or, Bool.not_eq_true] at himplied
      exact himplied.2
    have hvalue := expression_reads hg hvalue (Cursor.opens_false _)
    exact .node (.returnValueStatement closed) rfl rfl rfl
      (.keyword hkind (.sameLine hline (.part hvalue (.terminator (hg.ending hend)))))

/-- `throw` with its value. -/
theorem throwStatement_reads (h : throwStatement g c = .ok n c')
    (hkind : c.kind? = some (.keyword .throwKw)) :
    Reads Implied (levels + 1) (.statement closed) c n c' := by
  simp only [throwStatement, here_bind, advance_bind, bind_eq_ok, finish_eq_ok] at h
  obtain ⟨value, m, hvalue, _, m', hend, rfl, rfl⟩ := h
  have hvalue := expression_reads hg hvalue (Cursor.opens_false _)
  exact .node (.throwStatement closed) rfl rfl rfl
    (.keyword hkind (.part hvalue (.terminator (hg.ending hend))))

/-! ## Cases and handlers -/

/-- What a statement of a case can be. -/
theorem caseMember_cases {n? : Option Node} (h : caseMember g c = .ok n? c') :
    (n? = none ∧ c = c') ∨
      ∃ member, n? = some member ∧ Reads Implied levels .element c member c' := by
  rw [caseMember, peekKind?_bind] at h
  generalize c.kind? = kind at h
  split at h
  case h_5 =>
    simp only [bind_eq_ok, pure_eq_ok] at h
    obtain ⟨member, _, hmember, rfl, rfl⟩ := h
    exact .inr ⟨member, rfl, sourceElement_reads hg hmember⟩
  all_goals
    obtain ⟨rfl, rfl⟩ := pure_eq_ok.1 h
    exact .inl ⟨rfl, rfl⟩

/-- The label of a case: its test with `case`, or `default`. -/
theorem caseTest?_reads {test : Option Node} {count : Nat} (h : caseTest? g c = .ok test m)
    (hbody : ReadsItems Implied levels (Item.parts .element count) m ns c') :
    ∃ items, Phrase .switchCase (.switchCase test.isSome) items ∧
      ReadsItems Implied levels items c (test.toList ++ ns) c' := by
  rw [caseTest?, accept_bind] at h
  split at h
  · next hcase =>
    simp only [↓reduceIte, bind_eq_ok, expect_eq_ok, pure_eq_ok] at h
    obtain ⟨value, _, hvalue, _, _, ⟨hcolon, rfl⟩, rfl, rfl⟩ := h
    have hvalue := expression_reads hg hvalue (Cursor.opens_false _)
    exact ⟨_, .switchCase count, .keyword hcase (.part hvalue (.mark hcolon hbody))⟩
  · simp only [Bool.false_eq_true, ↓reduceIte, defaultLabel_bind] at h
    split at h
    · next hdefault =>
      simp only [pure_eq_ok] at h
      obtain ⟨rfl, rfl⟩ := h
      exact ⟨_, .switchDefault count, .keyword hdefault.1 (.mark hdefault.2 hbody)⟩
    · exact absurd h unexpected_ne_ok

/-- What a case of a `switch` can be. -/
theorem switchCase_cases {n? : Option Node} (h : switchCase g c = .ok n? c') :
    (n? = none ∧ c.kind? = some (.punctuator .rightCurly) ∧ c.advance = c') ∨
      ∃ n, n? = some n ∧ Reads Implied levels .switchCase c n c' := by
  rw [switchCase, accept_bind] at h
  split at h
  · next hclose =>
    obtain ⟨rfl, rfl⟩ := pure_eq_ok.1 h
    exact .inl ⟨rfl, hclose, rfl⟩
  · simp only [Bool.false_eq_true, ↓reduceIte, here_bind, bind_eq_ok, finish_bind,
      pure_eq_ok] at h
    obtain ⟨test, m, htest, body, m', hbody, rfl, rfl⟩ := h
    obtain ⟨_, hmembers, rfl⟩ := repeated_read (caseMember_cases hg) (collect_sound hbody)
    obtain ⟨items, hphrase, hitems⟩ := caseTest?_reads hg htest hmembers
    exact .inr ⟨_, rfl, .node hphrase rfl rfl rfl hitems⟩

/-- A choice between cases. -/
theorem switchStatement_reads (h : switchStatement g c = .ok n c')
    (hkind : c.kind? = some (.keyword .switchKw)) :
    Reads Implied (levels + 1) (.statement closed) c n c' := by
  simp only [switchStatement, here_bind, advance_bind, bind_eq_ok, expect_eq_ok,
    finish_eq_ok] at h
  obtain ⟨discriminant, m, hdiscriminant, _, _, ⟨hopen, rfl⟩, cases, m', hcases, rfl, rfl⟩ := h
  obtain ⟨_, hitems, hclose, rfl⟩ := repeated_read (switchCase_cases hg) (collect_sound hcases)
  exact .node (.switchStatement closed cases.length) rfl rfl rfl
    (.keyword hkind ((guard_reads hg hdiscriminant).append
      (.mark hopen (hitems.append_words (.mark hclose .nil)))))

/-- The handler of a `try`, if there is one. -/
theorem handler?_reads {handler : Option Node} (h : handler? g c = .ok handler c') :
    ReadsItems Implied levels (if handler.isSome then [.part .handler] else []) c handler.toList
      c' := by
  rw [handler?, here_bind, accept_bind] at h
  split at h
  · next hcatch =>
    simp only [↓reduceIte, bind_eq_ok, expect_eq_ok, name_eq_ok, finish_bind, pure_eq_ok] at h
    obtain ⟨_, _, ⟨hopen, rfl⟩, x, _, ⟨t, ht, hx, rfl⟩, _, _, ⟨hclose, rfl⟩, body, m, hbody, rfl,
      rfl⟩ := h
    have hclause : Reads Implied levels .handler c _ m :=
      .node (.catchClause x) rfl rfl rfl
        (.keyword hcatch (.mark hopen (.word ht hx (.mark hclose (.single (hg.block hbody))))))
    exact .single hclause
  · simp only [Bool.false_eq_true, ↓reduceIte, pure_eq_ok] at h
    obtain ⟨rfl, rfl⟩ := h
    exact .nil

/-- The finalizer of a `try`, if there is one. -/
theorem finalizer_reads {finalizer : Option Node}
    (h : after? (.keyword .finallyKw) g.block c = .ok finalizer c') :
    ReadsItems Implied levels
      (if finalizer.isSome then [.keyword .finallyKw, .part .block] else []) c finalizer.toList
      c' := by
  obtain ⟨body, hfinally, hbody, rfl⟩ | ⟨_, rfl, rfl⟩ := after?_eq_ok.1 h
  · exact .keyword hfinally (.single (hg.block hbody))
  · exact .nil

/-- A block with a handler, a finalizer or both. -/
theorem tryStatement_reads (h : tryStatement g c = .ok n c')
    (hkind : c.kind? = some (.keyword .tryKw)) :
    Reads Implied (levels + 1) (.statement closed) c n c' := by
  simp only [tryStatement, here_bind, advance_bind, bind_eq_ok] at h
  obtain ⟨body, m, hbody, handler, m', hhandler, finalizer, m'', hfinalizer, h⟩ := h
  split at h
  · exact absurd h throw_ne_ok
  next hparts =>
    obtain ⟨rfl, rfl⟩ := finish_eq_ok.1 h
    have hsome : (handler.isSome || finalizer.isSome) = true := by
      cases handler <;> cases finalizer <;> simp_all
    exact .node (.tryStatement closed _ _ hsome) rfl rfl rfl
      (.keyword hkind (.part (hg.block hbody)
        ((handler?_reads hg hhandler).append (finalizer_reads hg hfinalizer))))

/-! ## The grammar as a whole -/

/-- A statement, which its first token tells apart from the others. -/
theorem statement_reads (h : statement g c = .ok n c')
    (hclosed : closed = true → c'.kind? = some (.keyword .elseKw)) :
    Reads Implied (levels + 1) (.statement closed) c n c' := by
  rw [statement, peekKind?_bind] at h
  generalize hkind : c.kind? = kind at h
  split at h
  case h_1 => exact absurd h unexpected_ne_ok
  case h_2 => exact .through (.block closed) (hg.block h)
  case h_3 =>
    simp only [emptyStatement, here_bind, advance_bind, finish_eq_ok] at h
    obtain ⟨rfl, rfl⟩ := h
    exact .node (.emptyStatement closed) rfl rfl rfl (.mark hkind .nil)
  case h_4 => exact variableStatement_reads hg h
  case h_5 => exact variableStatement_reads hg h
  case h_6 => exact variableStatement_reads hg h
  case h_7 => exact ifStatement_reads hg h hkind hclosed
  case h_8 => exact guarded_reads hg h hkind rfl (.whileStatement closed) hclosed
  case h_9 => exact doWhileStatement_reads hg h hkind
  case h_10 => exact forStatement_reads hg h hkind hclosed
  case h_11 => exact jump_reads hg h hkind (fun _ => rfl) (.continueStatement closed)
  case h_12 => exact jump_reads hg h hkind (fun _ => rfl) (.breakStatement closed)
  case h_13 => exact returnStatement_reads hg h hkind
  case h_14 => exact guarded_reads hg h hkind rfl (.withStatement closed) hclosed
  case h_15 => exact switchStatement_reads hg h hkind
  case h_16 => exact throwStatement_reads hg h hkind
  case h_17 => exact tryStatement_reads hg h hkind
  case h_18 =>
    simp only [debuggerStatement, here_bind, advance_bind, bind_eq_ok, finish_eq_ok] at h
    obtain ⟨_, m, hend, rfl, rfl⟩ := h
    exact .node (.debuggerStatement closed) rfl rfl rfl
      (.keyword hkind (.terminator (hg.ending hend)))
  case h_19 =>
    exact functionDeclaration_reads hg h (.functionStatement closed) (fun _ => rfl) fun _ => rfl
  -- an expression, which starts neither like a block nor like a function
  case h_20 kind hblock _ _ _ _ _ _ _ _ _ _ _ _ _ _ _ _ hfunction =>
    refine expressionStatement_reads hg h fun _ => ?_
    rw [hkind]
    exact ⟨fun h => hblock (Option.some.inj h), fun h => hfunction (Option.some.inj h)⟩

end Productions

/-- The productions that open a nesting level read by the rules within the levels that are
left. -/
theorem nested_sound (levels : Nat) : (nested levels).Sound levels := by
  induction levels with
  | zero =>
    -- where no level is left nothing is read
    exact
      { ending := id
        statement := nofun
        block := nofun
        assignment := nofun
        unary := nofun
        construction := nofun }
  | succ levels hg =>
    refine
      { ending := id
        statement := fun h hclosed => statement_reads hg h hclosed
        block := fun h => block_reads hg h
        assignment := fun h hopens => ?_
        unary := fun h htarget => ?_
        construction := fun h hkind => ⟨levels, rfl, construction_reads hg h hkind⟩ }
    · exact (assignment_reads hg h hopens).item
    · exact (unary_reads hg h (Cursor.opens_false _)).behindOperator htarget

/-- What a member of a program can be. -/
theorem programMember_cases {n? : Option Node} (h : programMember outermost c = .ok n? c') :
    (n? = none ∧ c.rest = [] ∧ c = c') ∨
      ∃ member, n? = some member ∧ Reads Implied maxNesting .element c member c' := by
  rw [programMember, atEnd_bind] at h
  split at h
  · next hend =>
    obtain ⟨rfl, rfl⟩ := pure_eq_ok.1 h
    exact .inl ⟨rfl, List.isEmpty_iff.1 hend, rfl⟩
  · simp only [bind_eq_ok, pure_eq_ok] at h
    obtain ⟨member, _, hmember, rfl, rfl⟩ := h
    exact .inr ⟨member, rfl, sourceElement_reads (nested_sound maxNesting) hmember⟩

/-- The parser of programs finds its start in a way of its own. -/
theorem programStart_eq (hfresh : c.rest = [] → c.previous = none) :
    programStart c = .ok c.here c := by
  rw [programStart, Cursor.here, Cursor.lastEnd]
  cases hrest : c.rest with
  | nil =>
    rw [hfresh hrest]
    rfl
  | cons t rest => rfl

/-- A program is read by the rules, to the last token. -/
theorem program_reads (h : program c = .ok n c') (hfresh : c.rest = [] → c.previous = none) :
    Reads Implied maxNesting .program c n c' ∧ c'.rest = [] := by
  simp only [program, programOf, bind_eq_ok, finish_eq_ok] at h
  obtain ⟨start, _, hstart, body, m, hbody, rfl, rfl⟩ := h
  obtain ⟨m', hitems, hend, rfl⟩ := repeated_read programMember_cases (collect_sound hbody)
  -- the start that the parser takes is where the first token is, as for any other node
  rw [programStart_eq hfresh] at hstart
  cases hstart
  exact ⟨.node (.program body.length) rfl rfl rfl hitems, hend⟩

/-- An expression on its own is read by the rules. -/
theorem topExpression_reads (h : topExpression allowIn c = .ok n c') :
    Reads Implied maxNesting (.expression (.whole allowIn false)) c n c' :=
  expression_reads (nested_sound maxNesting) h (Cursor.opens_false c)

end ScriptLint.Grammar
