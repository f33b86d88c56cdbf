import ScriptLint.Proofs.Grammar.Uniform

/-!
# Expressions are uniform

Every production of expressions takes a token and is free: an expression ends where no token goes
on with it, and a `;` goes on with none. There is one statement for each production, in the order of
the grammar.
-/

namespace ScriptLint

variable {I : Type} {S : Setting I} {g : I → Nested}

/-- The productions that open a nesting level are uniform. -/
structure UniformNested (S : Setting I) (g : I → Nested) : Prop where
  ending (i : I) : (g i).ending = S.ending i
  statement (s : Option Token) : Uniform S s true false Node.Alike fun i => (g i).statement
  block (s : Option Token) : Uniform S s true true Node.Alike fun i => (g i).block
  assignment (allowIn : Bool) (s : Option Token) :
    Uniform S s true true Node.Alike fun i => (g i).assignment allowIn
  unary (s : Option Token) : Uniform S s true true Node.Alike fun i => (g i).unary
  construction (s : Option Token) : Uniform S s true true Node.Alike fun i => (g i).construction

namespace Grammar

open Setting ScriptLint.Parser

section Productions

variable (hg : UniformNested S g)
include hg

/-! ## Lists and functions -/

/-- A sequence goes on behind a comma. A `;` is none, so an expression is free. -/
theorem expression_uniform (allowIn : Bool) (s : Option Token) :
    Uniform S s true true Node.Alike fun i => expression (g i) allowIn := by
  unfold expression
  refine .here (.inl rfl) fun start hstart => ?_
  refine .andThen false (hg.assignment allowIn s) fun first hfirst s' => ?_
  refine .check nofun (fun hcomma => ?_) fun _ => .pure hfirst
  have hothers : Uniform S s' true true (List.Forall₂ Node.Alike) fun i =>
      collect (after? (.punctuator .comma) ((g i).assignment allowIn)) := by
    have h := Uniform.collect (s := s') fun s => .after? (.punctuator .comma) nofun
      fun s => hg.assignment allowIn s
    rwa [hcomma, beq_self_eq_true] at h
  exact .andThen false hothers fun others hothers _ =>
    .finish (.const _) hstart (hfirst.cons hothers)

/-- The parenthesis that closes is taken, so what stands behind it does not matter. -/
theorem parenthesized_uniform (s : Option Token) :
    Uniform S s true true Node.Alike fun i => parenthesized (g i) := by
  unfold parenthesized
  refine .andThen true .expect fun _ _ s => ?_
  refine .andThen true (expression_uniform hg true s) fun inner hinner s => ?_
  exact .andThen false .expect fun _ _ _ => .pure hinner

omit hg in
/-- A list between parentheses is uniform if its items are. It may be empty, but it always takes the
two parentheses. -/
theorem enclosedList_uniform {form : Form} {item : I → Parser Node}
    (hitem : ∀ s, Uniform S s true true Node.Alike item) (s : Option Token) :
    Uniform S s true true Node.Alike fun i => enclosedList form (item i) := by
  unfold enclosedList
  refine .here (.inl rfl) fun start hstart => ?_
  refine .andThen true .expect fun _ _ s => ?_
  have hclose {items : I → List Node} (hitems : S.Consistent (List.Forall₂ Node.Alike) items)
      (s : Option Token) : Uniform S s true true Node.Alike fun i =>
        expect (.punctuator .rightParen) "')'" >>= fun _ => finish form (start i) (items i) :=
    .andThen false .expect fun _ _ _ => .finish (.const form) hstart hitems
  refine .check nofun (fun _ => hclose .nil s) fun _ => ?_
  exact .andThen true (.separated hitem) fun items hitems s => hclose hitems s

/-- The arguments of a call or a construction. -/
theorem arguments_uniform (s : Option Token) :
    Uniform S s true true Node.Alike fun i => arguments (g i) :=
  enclosedList_uniform (hg.assignment true) s

omit hg in
/-- A parameter is a name, which is the same for tokens that differ only in their places. -/
theorem parameter_uniform (s : Option Token) :
    Uniform S s true true Node.Alike fun _ : I => parameter := by
  unfold parameter
  refine .here (.inl rfl) fun start hstart => ?_
  exact .andThen false .name fun name hname _ =>
    .finish (hname.compute Form.formalParameter) hstart .nil

omit hg in
/-- The parameters of a function. -/
theorem parameters_uniform (s : Option Token) :
    Uniform S s true true Node.Alike fun _ : I => parameters :=
  enclosedList_uniform parameter_uniform s

/-- The parameters and the body of a function, whose form has been read before. -/
theorem functionOf_uniform {form : I → Form} {start : I → Position}
    (hform : S.Consistent Eq form) (hstart : S.Places start) (s : Option Token) :
    Uniform S s true true Node.Alike fun i => functionOf (g i) (form i) (start i) := by
  unfold functionOf
  refine .andThen true (parameters_uniform s) fun parameters hparameters s => ?_
  refine .andThen false (hg.block s) fun body hbody _ => ?_
  exact .finish hform hstart (hparameters.cons (hbody.cons .nil))

/-- A function expression, whose form depends on whether a name is read. -/
theorem functionExpression_uniform (s : Option Token) :
    Uniform S s true true Node.Alike fun i => functionExpression (g i) := by
  unfold functionExpression
  refine .here (.inl rfl) fun start hstart => ?_
  refine .andThen false .expect fun _ _ s => ?_
  exact .andThen true .name? fun name hname s =>
    functionOf_uniform hg (hname.compute Form.functionExpression) hstart s

/-! ## Literals -/

/-- An element is not free: behind the last one the bracket is seen and not taken. -/
theorem element_uniform (s : Option Token) :
    Uniform S s (s.map Token.kind != some (.punctuator .rightBracket)) false
      (Round Node.Alike (s.map Token.kind != some (.punctuator .rightBracket)))
      fun i => element (g i) := by
  unfold element
  refine .upTo (fun hs => ?_) fun hs => ?_
  · exact .check nofun (fun _ => .giving .none) fun hne => absurd hs hne
  refine .check nofun (fun heq => absurd heq hs) fun _ => ?_
  refine .check nofun (fun hcomma => ?_) fun _ => ?_
  · refine .emptyExpression (.inl rfl) fun hole hhole => ?_
    exact .taking false (isSome_of_kind hcomma) fun _ => .giving hhole.some
  · refine .andThen false (hg.assignment true s) fun value hvalue s => ?_
    refine .check nofun (fun _ => .giving hvalue.some) fun _ => ?_
    exact .untaken (.andThen false .expect fun _ _ _ => .giving hvalue.some)

/-- The rounds of an array end at the closing bracket, which is then taken. -/
theorem arrayLiteral_uniform {s : Option Token} (hs : s.isSome = true) :
    Uniform S s true true Node.Alike fun i => arrayLiteral (g i) := by
  unfold arrayLiteral
  refine .here (.inl rfl) fun start hstart => ?_
  refine .taking false hs fun s => ?_
  refine .andTake (.untaken (.collect (element_uniform hg))) fun elements helements s => ?_
  exact .andThen false .expect fun _ _ _ => .finish (.const _) hstart helements

/-- A round of an object literal takes a token unless the object is closed there. -/
theorem member_uniform (s : Option Token) :
    Uniform S s (s.map Token.kind != some (.punctuator .rightCurly)) false
      (Round Node.Alike (s.map Token.kind != some (.punctuator .rightCurly)))
      fun i => member (g i) := by
  unfold member
  refine .upTo (fun hs => ?_) fun hs => ?_
  · exact .check nofun (fun _ => .giving .none) fun hne => absurd hs hne
  refine .check nofun (fun heq => absurd heq hs) fun _ => ?_
  refine .here (.inl rfl) fun start hstart => ?_
  refine .andThen true (.property fun _ => rfl) fun key hkey s => ?_
  refine .andThen true .expect fun _ _ s => ?_
  refine .andThen false (hg.assignment true s) fun value hvalue s => ?_
  refine .andThen false (.finish (hkey.compute Form.property) hstart (hvalue.cons .nil))
    fun result hresult s => ?_
  refine .check nofun (fun _ => .giving hresult.some) fun _ => ?_
  exact .untaken (.andThen false .expect fun _ _ _ => .giving hresult.some)

/-- The rounds of an object end at the closing brace, which is then taken. -/
theorem objectLiteral_uniform {s : Option Token} (hs : s.isSome = true) :
    Uniform S s true true Node.Alike fun i => objectLiteral (g i) := by
  unfold objectLiteral
  refine .here (.inl rfl) fun start hstart => ?_
  refine .taking false hs fun s => ?_
  refine .andTake (.untaken (.collect (member_uniform hg))) fun members hmembers s => ?_
  exact .andThen false .expect fun _ _ _ => .finish (.const _) hstart hmembers

/-- The token that is seen decides which kind of primary expression it is, one case for each kind.
-/
theorem primary_uniform (s : Option Token) :
    Uniform S s true true Node.Alike fun i => primary (g i) := by
  unfold primary
  refine .here (.inl rfl) fun start hstart => .peek? (fun _ _ => rfl) ?_
  cases s with
  | none => exact .unexpected
  | some t =>
    dsimp only
    split
    · exact .taking false rfl fun _ => .finish (.const _) hstart .nil
    split
    · exact .andThen false .name fun name hname _ =>
        .finish (hname.compute Form.identifier) hstart .nil
    · exact .taking false rfl fun _ => .finish (.const _) hstart .nil
    · exact functionExpression_uniform hg _
    · exact parenthesized_uniform hg _
    · exact arrayLiteral_uniform hg rfl
    · exact objectLiteral_uniform hg rfl
    · exact .unexpected

/-! ## Calls and member accesses -/

/-- A dot with a name, or brackets with an expression. -/
theorem memberAccess_uniform {start : I → Position} {object : I → Node} (hstart : S.Places start)
    (hobject : S.Consistent Node.Alike object) (s : Option Token) :
    Uniform S s true true Node.Alike fun i => memberAccess (g i) (start i) (object i) := by
  unfold memberAccess
  refine .accept true nofun (fun _ s => ?_) fun _ => ?_
  · refine .here (.inl rfl) fun nameStart hnameStart => ?_
    refine .andThen false (.property fun _ => rfl) fun name hname s => ?_
    have hkey := hname.compute fun name => Form.literal (.string name)
    refine .andThen false (.finish hkey hnameStart .nil) fun key hkey s => ?_
    exact .finish (.const _) hstart (hobject.cons (hkey.cons .nil))
  · refine .andThen true .expect fun _ _ s => ?_
    refine .andThen true (expression_uniform hg true s) fun key hkey s => ?_
    exact .andThen false .expect fun _ _ _ =>
      .finish (.const _) hstart (hobject.cons (hkey.cons .nil))

/-- Whether a token goes on with an expression by a member access. -/
def opensMember (s : Option Token) : Bool :=
  s.map Token.kind = some (.punctuator .dot) ∨ s.map Token.kind = some (.punctuator .leftBracket)

/-- Whether a token goes on with an expression by a call or a member access. -/
def opensCall (s : Option Token) : Bool :=
  s.map Token.kind == some (.punctuator .leftParen) || opensMember s

/-- A round of a chain of member accesses takes a token if a dot or a bracket is seen. -/
theorem memberStep_uniform {start : I → Position} {object : I → Node} (hstart : S.Places start)
    (hobject : S.Consistent Node.Alike object) (s : Option Token) :
    Uniform S s (opensMember s) true (Round Node.Alike (opensMember s))
      fun i => memberStep (g i) (start i) (object i) := by
  unfold memberStep
  refine .choice (by simp) (fun hs => ?_) fun hs => ?_
  · rw [opensMember, decide_eq_true hs]
    refine .andThen false (memberAccess_uniform hg hstart hobject s) fun access haccess s => ?_
    exact .bounded haccess (.pure haccess.some)
  · rw [opensMember, decide_eq_false hs]
    exact .pure .none

/-- A round of a chain of calls takes a token if a parenthesis, a dot or a bracket is seen. -/
theorem callStep_uniform {start : I → Position} {callee : I → Node} (hstart : S.Places start)
    (hcallee : S.Consistent Node.Alike callee) (s : Option Token) :
    Uniform S s (opensCall s) true (Round Node.Alike (opensCall s))
      fun i => callStep (g i) (start i) (callee i) := by
  unfold callStep
  refine .check nofun (fun hs => ?_) fun hs => ?_
  · rw [opensCall, hs, beq_self_eq_true]
    refine .andThen false (arguments_uniform hg s) fun list hlist s => ?_
    refine .andThen false (.finish (.const _) hstart (hcallee.cons (hlist.cons .nil)))
      fun call hcall s => ?_
    exact .bounded hcall (.pure hcall.some)
  · rw [opensCall, beq_eq_false_iff_ne.2 hs, Bool.false_or]
    exact memberStep_uniform hg hstart hcallee s

/-- A construction or a primary expression with what goes on with it. -/
theorem head_uniform {x : I → Parser Node} {f : I → Node → Parser Node} {s : Option Token}
    (hx : Uniform S s true true Node.Alike x)
    (hf : ∀ n, S.Consistent Node.Alike n → ∀ s,
      Uniform S s false true Node.Alike fun i => f i (n i)) :
    Uniform S s true true Node.Alike fun i => check (.keyword .newKw) >>= fun b =>
      if b = true then x i >>= f i else primary (g i) >>= f i :=
  .check nofun (fun _ => .andThen false hx hf)
    fun _ => .andThen false (primary_uniform hg s) hf

/-- A construction takes its first token whatever it is, although it is only read at `new`. Where
the tokens end there is nothing to construct. -/
theorem construction_uniform (s : Option Token) :
    Uniform S s true true Node.Alike fun i => construction (g i) := by
  cases s with
  | none =>
    refine .congr (y := fun _ => unexpected "expression") (fun i c hc => ?_) .unexpected
    obtain ⟨previous, _ | ⟨next, rest⟩⟩ := c
    · rfl
    · simp [Cursor.sight] at hc
  | some t =>
    unfold construction
    refine .here (.inl rfl) fun start hstart => .taking true rfl fun s => ?_
    refine .here (.inl rfl) fun calleeStart hcalleeStart => ?_
    refine head_uniform hg (hg.construction s) fun head hhead s => ?_
    refine .andThen false (.chain (fun object hobject =>
      memberStep_uniform hg hcalleeStart hobject) hhead) fun callee hcallee s => ?_
    refine .check (by simp) (fun _ => ?_) fun _ => .finish (.const _) hstart (hcallee.cons .nil)
    exact .andThen false (arguments_uniform hg s) fun list hlist _ =>
      .finish (.const _) hstart (hcallee.cons (hlist.cons .nil))

/-- What is called or accessed is read first, and then the chain, whose rounds a `;` ends. -/
theorem callChain_uniform (s : Option Token) :
    Uniform S s true true Node.Alike fun i => callChain (g i) := by
  unfold callChain
  refine .here (.inl rfl) fun start hstart => ?_
  refine head_uniform hg (construction_uniform hg s) fun head hhead s => ?_
  exact .chain (fun callee hcallee => callStep_uniform hg hstart hcallee) hhead

/-! ## Operators -/

/-- An update operator is the only token whose line matters inside an expression. -/
theorem updated_uniform (s : Option Token) :
    Uniform S s true true Node.Alike fun i => updated (g i) := by
  unfold updated
  refine .here (.inl rfl) fun start hstart => ?_
  refine .andThen false (callChain_uniform hg s) fun operand hoperand s => ?_
  cases hupdate : (s.map Token.kind).bind UpdateOperator.ofKind? with
  | none =>
    -- then a line break makes no difference
    refine .congr (fun i c hc => ?_) (.pure hoperand)
    have hnone : c.kind?.bind UpdateOperator.ofKind? = none := by
      rw [c.kind?_eq]
      obtain hc | ⟨-, -, hc⟩ := hc
      · rw [hc, hupdate]
      · rw [hc]
        rfl
    rw [newlineBefore_bind]
    split
    · rfl
    · rw [peekKind?_bind, hnone]
  | some operator =>
    obtain ⟨kind, hkind, hoperator⟩ := Option.bind_eq_some_iff.1 hupdate
    obtain ⟨t, rfl, rfl⟩ := Option.map_eq_some_iff.1 hkind
    refine .beforeUpdate ?_ hoperand (fun i c hc => ?_) ?_
    · rw [TokenKind.isUpdate, hoperator]
      rfl
    · rw [peekKind?_bind, c.kind?_eq, hc]
      rfl
    · refine .peekKind? (.inl rfl) ?_
      rw [hupdate]
      refine .requireAssignable hoperand (.taking false rfl fun _ => ?_)
      exact .finish (.const _) hstart (hoperand.cons .nil)

/-- Operators before an operand, or an operand with an update operator behind it. -/
theorem unary_uniform (s : Option Token) :
    Uniform S s true true Node.Alike fun i => unary (g i) := by
  unfold unary
  refine .here (.inl rfl) fun start hstart => .peekKind? (.inl rfl) ?_
  cases s with
  | none => exact .unexpected
  | some t =>
    dsimp only [Option.map_some]
    split
    · refine .taking true rfl fun s => ?_
      refine .andThen false (hg.unary s) fun operand hoperand s => ?_
      exact .requireAssignable hoperand (.finish (.const _) hstart (hoperand.cons .nil))
    split
    · refine .taking true rfl fun s => ?_
      exact .andThen false (hg.unary s) fun operand hoperand _ =>
        .finish (.const _) hstart (hoperand.cons .nil)
    · exact updated_uniform hg _

omit hg in
/-- The operator by which a token goes on with a binary expression. -/
def seenOperator? (allowIn : Bool) (loosest : Nat) (s : Option Token) : Option BinaryOperator :=
  (((s.map Token.kind).bind BinaryOperator.ofKind?).filter fun operator =>
    allowIn || operator != .isIn).filter fun operator => loosest < operator.precedence

omit hg in
/-- A round with a binary operator takes a token if the operator that is seen may go on with the
expression. -/
theorem binaryStep_uniform {right : I → BinaryOperator → Parser Node} {allowIn : Bool}
    {loosest : Nat} {start : I → Position} {left : I → Node}
    (hright : ∀ operator s, Uniform S s true true Node.Alike fun i => right i operator)
    (hstart : S.Places start) (hleft : S.Consistent Node.Alike left) (s : Option Token) :
    Uniform S s (seenOperator? allowIn loosest s).isSome true
      (Round Node.Alike (seenOperator? allowIn loosest s).isSome)
      fun i => binaryStep (right i) allowIn loosest (start i) (left i) := by
  unfold binaryStep
  refine .looking (seenOperator? allowIn loosest) (fun i c => ?_) ?_ ?_
  · rw [binaryOperator?_bind, Cursor.operator?, c.kind?_eq]
    rfl
  · intro htakes _ i
    rw [Option.isSome_eq_false_iff, Option.isNone_iff_eq_none] at htakes
    rw [htakes]
    rfl
  · cases hoperator : seenOperator? allowIn loosest s with
    | none => exact .pure .none
    | some operator =>
      have hsome : s.isSome = true := by
        cases s with
        | none => cases hoperator
        | some t => rfl
      refine .taking true hsome fun s => ?_
      refine .andThen false (hright operator s) fun operand hoperand s => ?_
      refine .andThen false (.finish (.const _) hstart (hleft.cons (hoperand.cons .nil)))
        fun both hboth s => ?_
      exact .bounded hboth (.pure hboth.some)

/-- The operands of binary operators, by induction on the bound on how deep the operators nest. -/
theorem binary_uniform (allowIn : Bool) (levels loosest : Nat) (s : Option Token) :
    Uniform S s true true Node.Alike fun i => binary (g i) allowIn levels loosest := by
  induction levels generalizing loosest s with
  | zero => exact unary_uniform hg s
  | succ levels ih =>
    unfold binary
    refine .here (.inl rfl) fun start hstart => ?_
    refine .andThen false (unary_uniform hg s) fun head hhead s => ?_
    exact .chain (fun left hleft => binaryStep_uniform (fun operator => ih operator.precedence)
      hstart hleft) hhead

/-- A test, and behind `?` two more expressions. -/
theorem conditional_uniform (allowIn : Bool) (s : Option Token) :
    Uniform S s true true Node.Alike fun i => conditional (g i) allowIn := by
  unfold conditional
  refine .here (.inl rfl) fun start hstart => ?_
  refine .andThen false (binary_uniform hg allowIn _ _ s) fun test htest s => ?_
  refine .accept true nofun (fun _ s => ?_) fun _ => .pure htest
  refine .andThen true (hg.assignment true s) fun consequent hconsequent s => ?_
  refine .andThen true .expect fun _ _ s => ?_
  refine .andThen false (hg.assignment allowIn s) fun alternate halternate _ => ?_
  exact .finish (.const _) hstart (htest.cons (hconsequent.cons (halternate.cons .nil)))

/-- A target is checked before its operator is taken. Whether it is one does not depend on places.
-/
theorem assignment_uniform (allowIn : Bool) (s : Option Token) :
    Uniform S s true true Node.Alike fun i => assignment (g i) allowIn := by
  unfold assignment
  refine .here (.inl rfl) fun start hstart => ?_
  refine .andThen false (conditional_uniform hg allowIn s) fun target htarget s => ?_
  cases hoperator : (s.map Token.kind).bind AssignOperator.ofKind? with
  | none =>
    refine .looking (fun s => s.map Token.kind) (fun i c => ?_) (fun _ _ i => ?_) ?_
    · rw [peekKind?_bind, c.kind?_eq]
    · rw [hoperator]
      rfl
    · rw [hoperator]
      exact .pure htarget
  | some operator =>
    obtain ⟨kind, hkind, -⟩ := Option.bind_eq_some_iff.1 hoperator
    refine .untaken (.peekKind? (.inl rfl) ?_)
    rw [hoperator]
    refine .requireAssignable htarget (.taking true (isSome_of_kind hkind) fun s => ?_)
    exact .andThen false (hg.assignment allowIn s) fun value hvalue _ =>
      .finish (.const _) hstart (htarget.cons (hvalue.cons .nil))

end Productions

end Grammar

end ScriptLint
