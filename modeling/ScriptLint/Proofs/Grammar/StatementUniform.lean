import ScriptLint.Proofs.Grammar.ExpressionUniform

/-!
# Statements are uniform

Every production of statements takes a token. A statement is not free: a `;` behind one that has no
terminator would be a statement of its own. By induction on the nesting levels the whole grammar is
uniform, whatever ends a statement.
-/

namespace ScriptLint.Grammar

open Setting ScriptLint.Parser

variable {I : Type} {S : Setting I} {g : I → Nested}

section Productions

variable (hg : UniformNested S g)
include hg

/-! ## Functions, blocks and declarations -/

/-- A function declaration ends with a brace and needs no `;`, so it is free. -/
theorem functionDeclaration_uniform (s : Option Token) :
    Uniform S s true true Node.Alike fun i => functionDeclaration (g i) := by
  unfold functionDeclaration
  refine .here (.inl rfl) fun start hstart => ?_
  refine .andThen true .expect fun _ _ s => ?_
  exact .andThen true .name fun name hname s =>
    functionOf_uniform hg (hname.compute Form.functionDeclaration) hstart s

/-- The token that is seen decides between a declaration and a statement. -/
theorem sourceElement_uniform (s : Option Token) :
    Uniform S s true false Node.Alike fun i => sourceElement (g i) := by
  unfold sourceElement
  exact .check nofun (fun _ => (functionDeclaration_uniform hg s).unfree) fun _ => hg.statement s

/-- A round of a block takes a token unless the block is closed there. -/
theorem blockMember_uniform (s : Option Token) :
    Uniform S s (s.map Token.kind != some (.punctuator .rightCurly)) false
      (Round Node.Alike (s.map Token.kind != some (.punctuator .rightCurly)))
      fun i => blockMember (g i) := by
  unfold blockMember
  refine .upTo (fun hs => ?_) fun hs => ?_
  · exact .check nofun (fun _ => .giving .none) fun hne => absurd hs hne
  refine .check nofun (fun heq => absurd heq hs) fun _ => ?_
  refine .atEnd (.inl rfl) (fun _ => .unexpected) fun _ => ?_
  exact .mapping (sourceElement_uniform hg s) fun member hmember => hmember.some

/-- The rounds of a block end at the closing brace, which is then taken. -/
theorem block_uniform (s : Option Token) :
    Uniform S s true true Node.Alike fun i => block (g i) := by
  unfold block
  refine .here (.inl rfl) fun start hstart => ?_
  refine .andThen false .expect fun _ _ s => ?_
  refine .andTake (.untaken (.collect (blockMember_uniform hg))) fun body hbody s => ?_
  exact .andThen false .expect fun _ _ _ => .finish (.const _) hstart hbody

/-- An expression up to the end of its statement. -/
theorem expressionStatement_uniform (s : Option Token) :
    Uniform S s true false Node.Alike fun i => expressionStatement (g i) := by
  unfold expressionStatement
  simp only [hg.ending]
  refine .here (.inl rfl) fun start hstart => ?_
  exact .terminated (expression_uniform hg true s) fun value hvalue _ =>
    .finish (.const _) hstart (hvalue.cons .nil)

/-- A name with the value behind `=`, if there is one. -/
theorem definition_uniform (allowIn : Bool) (s : Option Token) :
    Uniform S s true true Node.Alike fun i => definition (g i) allowIn := by
  unfold definition
  refine .here (.inl rfl) fun start hstart => ?_
  refine .andThen false .name fun name hname s => ?_
  refine .andThen false (.untaken (.after? (.punctuator .assign) nofun (hg.assignment allowIn)))
    fun init hinit s => ?_
  have hform := hname.map₂ hinit.isSome (q := Eq) (f := Form.variableDefinition)
    fun _ _ _ _ h h' => congrArg₂ _ h h'
  exact .finish hform hstart hinit.toList

/-- The keyword that is seen decides which kind of definitions they are. -/
theorem declarations_uniform (allowIn : Bool) (s : Option Token) :
    Uniform S s true true Node.Alike fun i => declarations (g i) allowIn := by
  unfold declarations
  refine .here (.inl rfl) fun start hstart => .peekKind? (.inl rfl) ?_
  split
  · exact .unexpected
  · next declaration hdeclaration =>
    obtain ⟨kind, hkind, -⟩ := Option.bind_eq_some_iff.1 hdeclaration
    refine .taking true (isSome_of_kind hkind) fun s => ?_
    refine .andThen false (.separated (definition_uniform hg allowIn)) fun definitions hdefs _ => ?_
    exact .finish (.const _) hstart hdefs

/-- Definitions up to the end of their statement. -/
theorem variableStatement_uniform (s : Option Token) :
    Uniform S s true false Node.Alike fun i => variableStatement (g i) := by
  unfold variableStatement
  simp only [hg.ending]
  refine .here (.inl rfl) fun start hstart => ?_
  exact .terminated (declarations_uniform hg true s) fun list hlist _ =>
    .finish hlist.form hstart hlist.children

/-! ## Branches and loops -/

/-- Both branches are statements. The second one stands behind `else`, which no `;` is. -/
theorem ifStatement_uniform {s : Option Token} (hs : s.isSome = true) :
    Uniform S s true false Node.Alike fun i => ifStatement (g i) := by
  unfold ifStatement
  refine .here (.inl rfl) fun start hstart => .taking true hs fun s => ?_
  refine .andThen true (parenthesized_uniform hg s) fun test htest s => ?_
  refine .andClose false (hg.statement s) fun consequent hconsequent s => ?_
  refine .andClose false (.untaken (.after? (.keyword .elseKw) nofun hg.statement))
    fun alternate halternate s => ?_
  exact .unfree (.finish (halternate.isSome.compute Form.ifStatement) hstart
    (htest.cons (hconsequent.cons halternate.toList)))

/-- A condition and the statement below it. -/
theorem guarded_uniform {form : Form} {s : Option Token} (hs : s.isSome = true) :
    Uniform S s true false Node.Alike fun i => guarded (g i) form := by
  unfold guarded
  refine .here (.inl rfl) fun start hstart => .taking true hs fun s => ?_
  refine .andThen true (parenthesized_uniform hg s) fun head hhead s => ?_
  exact .andClose false (hg.statement s) fun body hbody _ =>
    .unfree (.finish (.const _) hstart (hhead.cons (hbody.cons .nil)))

/-- The `;` behind the condition is optional, on any line, so nothing has to end here. -/
theorem doWhileStatement_uniform {s : Option Token} (hs : s.isSome = true) :
    Uniform S s true false Node.Alike fun i => doWhileStatement (g i) := by
  unfold doWhileStatement
  refine .here (.inl rfl) fun start hstart => .taking true hs fun s => ?_
  refine .andClose true (hg.statement s) fun body hbody s => ?_
  refine .andThen true .expect fun _ _ s => ?_
  refine .andThen false (parenthesized_uniform hg s) fun test htest s => ?_
  exact .skipping fun _ => .unfree (.finish (.const _) hstart (hbody.cons (htest.cons .nil)))

/-- What follows `in` in the head of a loop, and the body of the loop. -/
theorem forInRest_uniform {start : I → Position} {left : I → Node} (hstart : S.Places start)
    (hleft : S.Consistent Node.Alike left) (s : Option Token) :
    Uniform S s true false Node.Alike fun i => forInRest (g i) (start i) (left i) := by
  unfold forInRest
  refine .andThen true (expression_uniform hg true s) fun right hright s => ?_
  refine .andThen true .expect fun _ _ s => ?_
  exact .andClose false (hg.statement s) fun body hbody _ =>
    .unfree (.finish (.const _) hstart (hleft.cons (hright.cons (hbody.cons .nil))))

/-- A clause in the head of a loop may be empty, and then it takes nothing. -/
theorem forClause_uniform {closer : TokenKind} (s : Option Token) :
    Uniform S s false false Node.Alike fun i => forClause (g i) closer := by
  unfold forClause
  refine .check (fun _ => .inr rfl) (fun _ => ?_) fun _ => ?_
  · have hempty : Uniform S s false false Node.Alike fun _ => emptyExpression >>= fun n => pure n :=
      .emptyExpression (.inr rfl) fun n hn => .giving hn
    exact .congr (fun _ _ _ => rfl) hempty
  · exact (expression_uniform hg true s).untaken.unfree

/-- The `;` in the head of a loop are expected as tokens and are never put in. -/
theorem forRest_uniform {start : I → Position} {init : I → Node} (hstart : S.Places start)
    (hinit : S.Consistent Node.Alike init) (s : Option Token) :
    Uniform S s true false Node.Alike fun i => forRest (g i) (start i) (init i) := by
  unfold forRest
  refine .andThen false .expect fun _ _ s => ?_
  refine .andTake (forClause_uniform hg s) fun test htest s => ?_
  refine .andThen false .expect fun _ _ s => ?_
  refine .andTake (forClause_uniform hg s) fun update hupdate s => ?_
  refine .andThen true .expect fun _ _ s => ?_
  exact .andClose false (hg.statement s) fun body hbody _ =>
    .unfree (.finish (.const _) hstart
      (hinit.cons (htest.cons (hupdate.cons (hbody.cons .nil)))))

/-- Three kinds of loops: without a start, with definitions and with an expression. -/
theorem forStatement_uniform {s : Option Token} (hs : s.isSome = true) :
    Uniform S s true false Node.Alike fun i => forStatement (g i) := by
  unfold forStatement
  refine .here (.inl rfl) fun start hstart => .taking true hs fun s => ?_
  refine .andThen true .expect fun _ _ s => ?_
  refine .check (fun _ => .inl rfl) (fun _ => ?_) fun _ => .choice (fun _ => .inl rfl)
    (fun _ => ?_) fun _ => ?_
  · exact .emptyExpression (.inl rfl) fun init hinit => forRest_uniform hg hstart hinit s
  · refine .andThen true (declarations_uniform hg false s) fun init hinit s => ?_
    exact .accept true nofun (fun _ => forInRest_uniform hg hstart hinit) fun _ =>
      forRest_uniform hg hstart hinit s
  · refine .andThen true (expression_uniform hg false s) fun init hinit s => ?_
    refine .check nofun (fun hin => ?_) fun _ => forRest_uniform hg hstart hinit s
    exact .requireAssignable hinit (.taking true (isSome_of_kind hin)
      (forInRest_uniform hg hstart hinit))

/-! ## Jumps -/

omit hg in
/-- A keyword with the label behind it. -/
theorem label?_uniform {t : Token} (ht : t.kind.endsWithLine = true) :
    Uniform S (some t) true true Eq fun _ => advance >>= fun _ => label? := by
  refine .behindKeyword ht (.const none) (fun _ c hc => ?_) fun _ => .name?
  rw [name?_eq, hc]
  rfl

/-- `break` and `continue` have a label only if it stands on their line. -/
theorem jump_uniform {form : Option String → Form} {t : Token}
    (ht : t.kind.endsWithLine = true) :
    Uniform S (some t) true false Node.Alike fun i => jump (g i) form := by
  unfold jump
  simp only [hg.ending]
  refine .here (.inl rfl) fun start hstart => ?_
  have hjump : Uniform S (some t) true false Node.Alike fun i =>
      (advance >>= fun _ => label?) >>= fun label =>
        S.ending i >>= fun _ => finish (form label) (start i) [] :=
    .terminated (label?_uniform ht) fun label hlabel _ => .finish (hlabel.compute form) hstart .nil
  exact .congr (fun _ _ _ => rfl) hjump

omit hg in
/-- The value of a `return` behind which no line ends. -/
def sameLineValue? (g : Nested) : Parser (Option Node) := do
  let kind ← peekKind?
  if kind ≠ none ∧ kind ≠ some (.punctuator .semicolon) ∧ kind ≠ some (.punctuator .rightCurly) then
    let value ← expression g true
    return some value
  else
    return none

omit hg in
/-- What `return` gives back, with the question about the line asked first and the other questions
after it. -/
theorem returnValue?_eq (g : Nested) :
    returnValue? g =
      newlineBefore >>= fun b => if b = true then pure none else sameLineValue? g := by
  funext c
  have hend : c.rest.isEmpty = (c.kind? == none) := by
    rw [Cursor.kind?]
    cases c.rest <;> rfl
  rw [returnValue?, newlineBefore_bind, check_bind]
  by_cases hsemicolon : c.kind? = some (.punctuator .semicolon)
  · rw [hsemicolon, beq_self_eq_true, if_pos rfl]
    split
    · rfl
    · rw [sameLineValue?, peekKind?_bind, if_neg fun h => h.2.1 hsemicolon]
  · rw [beq_eq_false_iff_ne.2 hsemicolon, if_neg Bool.false_ne_true, impliedTerminator_bind]
    cases hnewline : c.newlineBefore with
    | true =>
      have himplies : c.impliesTerminator = true := by
        rw [Cursor.impliesTerminator, hnewline, Bool.or_true]
      rw [himplies]
      rfl
    | false =>
      rw [Cursor.impliesTerminator, hnewline, Bool.or_false, hend, if_neg Bool.false_ne_true,
        sameLineValue?, peekKind?_bind]
      by_cases hstop : c.kind? = some (.punctuator .rightCurly) ∨ c.kind? = none
      · rw [if_pos (by simpa using hstop), if_neg fun h => hstop.elim h.2.2 h.1]
      · rw [not_or] at hstop
        rw [if_neg (by simpa using hstop), if_pos ⟨hstop.2, hsemicolon, hstop.1⟩]

/-- A keyword with the value behind it. -/
theorem returnValue?_uniform {t : Token} (ht : t.kind.endsWithLine = true) :
    Uniform S (some t) true true (Round Node.Alike true) fun i =>
      advance >>= fun _ => returnValue? (g i) := by
  simp only [returnValue?_eq]
  refine .behindKeyword ht .none (fun i c hc => ?_) fun s => ?_
  · rw [sameLineValue?, peekKind?_bind, c.kind?_eq, hc]
    rfl
  · refine .choice (by simp) (fun _ => ?_) fun _ => .pure .none
    exact .mapping (expression_uniform hg true s) fun value hvalue => hvalue.some

/-- `return` gives a value back only if it starts on its line. -/
theorem returnStatement_uniform {t : Token} (ht : t.kind.endsWithLine = true) :
    Uniform S (some t) true false Node.Alike fun i => returnStatement (g i) := by
  unfold returnStatement
  simp only [hg.ending]
  refine .here (.inl rfl) fun start hstart => ?_
  have hreturn : Uniform S (some t) true false Node.Alike fun i =>
      (advance >>= fun _ => returnValue? (g i)) >>= fun value =>
        S.ending i >>= fun _ => finish (.returnStatement value.isSome) (start i) value.toList :=
    .terminated (returnValue?_uniform hg ht) fun value hvalue _ =>
      .finish (hvalue.isSome.compute Form.returnStatement) hstart hvalue.toList
  exact .congr (fun _ _ _ => rfl) hreturn

/-- `throw` always has an expression, on whatever line. -/
theorem throwStatement_uniform {s : Option Token} (hs : s.isSome = true) :
    Uniform S s true false Node.Alike fun i => throwStatement (g i) := by
  unfold throwStatement
  simp only [hg.ending]
  refine .here (.inl rfl) fun start hstart => ?_
  have hthrow : Uniform S s true false Node.Alike fun i =>
      (advance >>= fun _ => expression (g i) true) >>= fun value =>
        S.ending i >>= fun _ => finish .throwStatement (start i) [value] :=
    .terminated (.taking true hs (expression_uniform hg true)) fun value hvalue _ =>
      .finish (.const _) hstart (hvalue.cons .nil)
  exact .congr (fun _ _ _ => rfl) hthrow

/-- A keyword up to the end of its statement. -/
theorem debuggerStatement_uniform {t : Token} :
    Uniform S (some t) true false Node.Alike fun i => debuggerStatement (g i) := by
  unfold debuggerStatement
  simp only [hg.ending]
  refine .here (.inl rfl) fun start hstart => ?_
  exact .terminated (f := fun i _ => finish .debuggerStatement (start i) []) .advance
    fun _ _ _ => .finish (.const _) hstart .nil

/-! ## Choices and handlers -/

/-- The test of a case, or `default` together with its colon. -/
theorem caseTest?_uniform (s : Option Token) :
    Uniform S s true true (Round Node.Alike true) fun i => caseTest? (g i) := by
  unfold caseTest?
  refine .accept true nofun (fun _ s => ?_) fun _ => ?_
  · refine .andThen true (expression_uniform hg true s) fun test htest s => ?_
    exact .andThen false .expect fun _ _ _ => .giving htest.some
  by_cases hdefault : s.map Token.kind = some (.keyword .defaultKw)
  · obtain ⟨t, rfl, ht⟩ := Option.map_eq_some_iff.1 hdefault
    exact .defaultLabel ht .none
  · refine .congr (y := fun _ => unexpected "'case', 'default' or '\x7d'") (fun i c hc => ?_)
      .unexpected
    obtain rfl | ⟨⟨⟩, -⟩ := hc
    rw [← c.kind?_eq] at hdefault
    rw [defaultLabel_bind, if_neg fun h => hdefault h.1]
    rfl

/-- Whether a token opens a statement of a case. -/
def opensCaseMember : Option TokenKind → Bool
  | none
  | some (.keyword .caseKw)
  | some (.keyword .defaultKw)
  | some (.punctuator .rightCurly) => false
  | some _ => true

/-- A round of a case takes a token unless another case or the closing brace is seen. -/
theorem caseMember_uniform (s : Option Token) :
    Uniform S s (opensCaseMember (s.map Token.kind)) false
      (Round Node.Alike (opensCaseMember (s.map Token.kind))) fun i => caseMember (g i) := by
  unfold caseMember
  refine .peekKind? (.inr rfl) ?_
  split
  case h_5 kind hcase hdefault hclose hkind =>
    have hopens : opensCaseMember (some kind) = true := by
      unfold opensCaseMember
      split <;> simp_all
    rw [hkind, hopens]
    exact .mapping (sourceElement_uniform hg s) fun member hmember => hmember.some
  all_goals
    next hkind =>
      rw [hkind]
      exact .giving .none

/-- A round of a `switch` always takes a token: a case, or the brace that closes it. -/
theorem switchCase_uniform (s : Option Token) :
    Uniform S s true false (Round Node.Alike true) fun i => switchCase (g i) := by
  unfold switchCase
  refine .accept false nofun (fun _ _ => .giving .none) fun _ => ?_
  refine .here (.inl rfl) fun start hstart => ?_
  refine .andThen false (caseTest?_uniform hg s) fun test htest s => ?_
  refine .andClose false (.untaken (.collect (caseMember_uniform hg))) fun members hmembers s => ?_
  refine .andThen false (.finish (htest.isSome.compute Form.switchCase) hstart
    (htest.toList.append hmembers)) fun result hresult _ => ?_
  exact .giving hresult.some

/-- A `switch` with its cases. -/
theorem switchStatement_uniform {s : Option Token} (hs : s.isSome = true) :
    Uniform S s true false Node.Alike fun i => switchStatement (g i) := by
  unfold switchStatement
  refine .here (.inl rfl) fun start hstart => .taking true hs fun s => ?_
  refine .andThen true (parenthesized_uniform hg s) fun discriminant hdiscriminant s => ?_
  refine .andThen true .expect fun _ _ s => ?_
  refine .andClose false (.collect (switchCase_uniform hg)) fun cases hcases _ => ?_
  exact .unfree (.finish (.const _) hstart (hdiscriminant.cons hcases))

/-- A handler takes tokens only if there is one. -/
theorem handler?_uniform (s : Option Token) :
    Uniform S s false false (Round Node.Alike true) fun i => handler? (g i) := by
  unfold handler?
  refine .here (.inr rfl) fun start hstart => ?_
  refine .accept true nofun (fun _ s => ?_) fun _ => .giving .none
  refine .andThen true .expect fun _ _ s => ?_
  refine .andThen true .name fun parameter hparameter s => ?_
  refine .andThen true .expect fun _ _ s => ?_
  refine .andThen false (hg.block s) fun body hbody s => ?_
  refine .andThen false (.finish (hparameter.compute Form.catchClause) hstart (hbody.cons .nil))
    fun clause hclause _ => ?_
  exact .giving hclause.some

/-- Whether a `try` has neither a handler nor a finalizer is the same in all runs. -/
theorem tryStatement_uniform {s : Option Token} (hs : s.isSome = true) :
    Uniform S s true false Node.Alike fun i => tryStatement (g i) := by
  unfold tryStatement
  refine .here (.inl rfl) fun start hstart => .taking true hs fun s => ?_
  refine .andThen false (hg.block s) fun body hbody s => ?_
  refine .andClose false (handler?_uniform hg s) fun handler hhandler s => ?_
  refine .andThen false (.untaken (.after? (.keyword .finallyKw) nofun hg.block))
    fun finalizer hfinalizer s => ?_
  refine .branch (fun i j => ?_) (.throw fun _ _ => rfl) ?_
  · have h := (hhandler.isSome i j).1
    have h' := (hfinalizer.isSome i j).1
    simp only at h h'
    rw [← Option.not_isSome, ← Option.not_isSome, h, h']
    simp
  · have hform := hhandler.isSome.map₂ hfinalizer.isSome (q := Eq) (f := Form.tryStatement)
      fun _ _ _ _ h h' => congrArg₂ _ h h'
    exact .unfree (.finish hform hstart (hbody.cons (hhandler.toList.append hfinalizer.toList)))

omit hg in
/-- A `;` on its own. -/
theorem emptyStatement_uniform {s : Option Token} (hs : s.isSome = true) :
    Uniform S s true true Node.Alike fun _ : I => emptyStatement := by
  unfold emptyStatement
  refine .here (.inl rfl) fun start hstart => .taking false hs fun _ => ?_
  exact .finish (.const _) hstart .nil

/-- The token that is seen decides which kind of statement it is, one case for each kind. -/
theorem statement_uniform (s : Option Token) :
    Uniform S s true false Node.Alike fun i => statement (g i) := by
  unfold statement
  refine .peekKind? (.inl rfl) ?_
  cases s with
  | none => exact .unexpected
  | some t =>
    dsimp only [Option.map_some]
    split
    · exact .unexpected
    · exact (hg.block _).unfree
    · exact (emptyStatement_uniform rfl).unfree
    · exact variableStatement_uniform hg _
    · exact variableStatement_uniform hg _
    · exact variableStatement_uniform hg _
    · exact ifStatement_uniform hg rfl
    · exact guarded_uniform hg rfl
    · exact doWhileStatement_uniform hg rfl
    · exact forStatement_uniform hg rfl
    · next hkind => exact jump_uniform hg (by rw [Option.some.inj hkind]; rfl)
    · next hkind => exact jump_uniform hg (by rw [Option.some.inj hkind]; rfl)
    · next hkind => exact returnStatement_uniform hg (by rw [Option.some.inj hkind]; rfl)
    · exact guarded_uniform hg rfl
    · exact switchStatement_uniform hg rfl
    · exact throwStatement_uniform hg rfl
    · exact tryStatement_uniform hg rfl
    · exact debuggerStatement_uniform hg
    · exact (functionDeclaration_uniform hg _).unfree
    · exact expressionStatement_uniform hg _

/-! ## Programs -/

/-- A round of a program takes a token unless the tokens end there. -/
theorem programMember_uniform (s : Option Token) :
    Uniform S s s.isSome false (Round Node.Alike s.isSome) fun i => programMember (g i) := by
  unfold programMember
  cases s with
  | none => exact .atEnd (.inr rfl) (fun _ => .giving .none) fun hne => absurd rfl hne
  | some t =>
    refine .atEnd (.inl rfl) nofun fun _ => ?_
    exact .mapping (sourceElement_uniform hg _) fun member hmember => hmember.some

end Productions

/-- The grammar is uniform at every nesting level. -/
theorem nestedWith_uniform (S : Setting I) (levels : Nat) :
    UniformNested S fun i => nestedWith (S.ending i) levels := by
  induction levels with
  | zero =>
    exact
      { ending := fun _ => rfl
        statement := fun _ => .tooDeep
        block := fun _ => .tooDeep
        assignment := fun _ _ => .tooDeep
        unary := fun _ => .tooDeep
        construction := fun _ => .tooDeep }
  | succ levels ih =>
    exact
      { ending := fun _ => rfl
        statement := statement_uniform ih
        block := block_uniform ih
        assignment := assignment_uniform ih
        unary := unary_uniform ih
        construction := construction_uniform ih }

/-- A program from the first token on. -/
def programFrom (g : Nested) : Parser Node := do
  let start ← here
  let body ← collect (programMember g)
  finish .program start body

/-- Nothing stands before a program that starts with the first token. -/
theorem programOf_eq (g : Nested) {c : Cursor} (h : c.previous = none) :
    programOf g c = programFrom g c := by
  obtain ⟨_, rest⟩ := c
  subst h
  cases rest <;> rfl

/-- Where a token is ahead, the program starts with it, whatever stands before. -/
theorem programOf_eq_of_ne_nil (g : Nested) {c : Cursor} (h : c.rest ≠ []) :
    programOf g c = programFrom g c := by
  obtain ⟨previous, rest⟩ := c
  cases rest with
  | nil => exact absurd rfl h
  | cons t rest => rfl

/-- A program with its statements. -/
theorem programFrom_uniform (hg : UniformNested S g) (s : Option Token) :
    Uniform S s s.isSome false Node.Alike fun i => programFrom (g i) := by
  unfold programFrom
  refine .here (.inr rfl) fun start hstart => ?_
  refine .andClose false (.collect (programMember_uniform hg)) fun body hbody _ => ?_
  exact .unfree (.finish (.const _) hstart hbody)

end ScriptLint.Grammar
