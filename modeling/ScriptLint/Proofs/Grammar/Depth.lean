import ScriptLint.Proofs.Grammar.Run

/-!
# Counting nesting levels

The grammar takes the number of nesting levels that are left as an argument. Here it is run in
another way: the levels that are open are counted in the state. A production that opens a level
fails if too many are open, and otherwise counts one more while it runs and one less when it is
done, also if it fails (`deeper`). The state keeps the greatest count as well.

Both ways come to the same (`counted_mirrors`): a run with a count gives what the run without one
gives, it ends with the count with which it began, and the count never exceeds `maxNesting`. The
productions are the same for both, so the proof goes through them one by one, in the order of the
grammar.
-/

namespace ScriptLint

open ScriptLint.Parser

/-- A cursor with the number of nesting levels that are open and the most that were ever open. -/
structure Gauge where
  cursor : Cursor
  depth : Nat
  peak : Nat
deriving DecidableEq, Repr

instance : HasCursor Gauge := ⟨Gauge.cursor, fun s c => { s with cursor := c }⟩

namespace Grammar

/-- Runs a parser with one more nesting level open, and closes the level again. -/
def deeper {α : Type} (x : ParserOn Gauge α) : ParserOn Gauge α := fun s =>
  if maxNesting ≤ s.depth then .error (.nestingTooDeep s.cursor.here) s
  else
    match x { s with depth := s.depth + 1, peak := max s.peak (s.depth + 1) } with
    | .ok a s' => .ok a { s' with depth := s'.depth - 1 }
    | .error e s' => .error e { s' with depth := s'.depth - 1 }

/-- The productions that open a nesting level and count it. They call each other up to `fuel` times
without coming back, and beyond that they are those of `bottom`. -/
def counted (bottom : NestedOn Gauge) : (fuel : Nat) → NestedOn Gauge
  | 0 => bottom
  | fuel + 1 =>
    let inner := counted bottom fuel
    { ending := terminator
      statement := deeper (statement inner)
      block := deeper (block inner)
      assignment := fun allowIn => deeper (assignment inner allowIn)
      unary := deeper (unary inner)
      construction := deeper (construction inner) }

/-- Productions of which none opens a level. -/
def closed : NestedOn Gauge where
  ending := terminator
  statement := tooDeep
  block := tooDeep
  assignment _ := tooDeep
  unary := tooDeep
  construction := tooDeep

end Grammar

/-- What a run on a cursor comes to, with counts. -/
def Gauge.outcome {α : Type} (depth peak : Nat) :
    EStateM.Result SyntaxError Cursor α → EStateM.Result SyntaxError Gauge α
  | .ok a c => .ok a ⟨c, depth, peak⟩
  | .error e c => .error e ⟨c, depth, peak⟩

/-- `Mirrors depth x y` says that `x` does at a depth what `y` does without a count. The depth is
the same again in the end, and the peak stays within the bound. -/
def Mirrors {α : Type} (depth : Nat) (x : ParserOn Gauge α) (y : Parser α) : Prop :=
  ∀ c peak, peak ≤ Grammar.maxNesting →
    ∃ peak' ≤ Grammar.maxNesting, x ⟨c, depth, peak⟩ = Gauge.outcome depth peak' (y c)

namespace Mirrors

variable {α β : Type} {depth : Nat} {kind : TokenKind} {expected : String}

/-! ## Steps -/

/-- What looks only at the cursor and moves only the cursor. -/
theorem of_eq {x : ParserOn Gauge α} {y : Parser α}
    (h : ∀ c peak, x ⟨c, depth, peak⟩ = Gauge.outcome depth peak (y c)) : Mirrors depth x y :=
  fun c peak hpeak => ⟨peak, hpeak, h c peak⟩

/-- A value is given without a look at the counts. -/
theorem pure (a : α) : Mirrors depth (pure a) (pure a) := of_eq fun _ _ => rfl

/-- Two parsers one after the other. The peak that the first one leaves is the peak at which the
second one starts. -/
theorem bind {x : ParserOn Gauge α} {y : Parser α} {f : α → ParserOn Gauge β}
    {g : α → Parser β} (hx : Mirrors depth x y) (hf : ∀ a, Mirrors depth (f a) (g a)) :
    Mirrors depth (x >>= f) (y >>= g) := by
  intro c peak hpeak
  obtain ⟨peak', hpeak', hx⟩ := hx c peak hpeak
  show ∃ peak' ≤ Grammar.maxNesting,
    EStateM.bind x f _ = Gauge.outcome depth peak' (EStateM.bind y g c)
  unfold EStateM.bind
  rw [hx]
  cases y c with
  | ok a c' => exact hf a c' peak' hpeak'
  | error e c' => exact ⟨peak', hpeak', rfl⟩

/-- Both ways choose the same branch, since the choice does not depend on the counts. -/
theorem ite {p : Prop} [Decidable p] {x x' : ParserOn Gauge α} {y y' : Parser α}
    (hx : Mirrors depth x y) (hx' : Mirrors depth x' y') :
    Mirrors depth (if p then x else x') (if p then y else y') := by
  split
  · exact hx
  · exact hx'

theorem here : Mirrors depth here here := of_eq fun _ _ => rfl

theorem peek? : Mirrors depth peek? peek? := of_eq fun _ _ => rfl

theorem peekKind? : Mirrors depth peekKind? peekKind? := of_eq fun _ _ => rfl

theorem atEnd : Mirrors depth atEnd atEnd := of_eq fun _ _ => rfl

theorem newlineBefore : Mirrors depth newlineBefore newlineBefore := of_eq fun _ _ => rfl

theorem advance : Mirrors depth advance advance := of_eq fun _ _ => rfl

theorem unexpected : Mirrors (α := α) depth (unexpected expected) (unexpected expected) :=
  of_eq fun _ _ => rfl

theorem throw {e : SyntaxError} : Mirrors (α := α) depth (throw e) (throw e) :=
  of_eq fun _ _ => rfl

/-- A node ends at the cursor, which both ways have in common. -/
theorem finish {form : Form} {start : Position} {children : List Node} :
    Mirrors depth (finish form start children) (finish form start children) :=
  of_eq fun _ _ => rfl

theorem emptyExpression : Mirrors depth emptyExpression emptyExpression := of_eq fun _ _ => rfl

theorem check : Mirrors depth (check kind) (check kind) := of_eq fun _ _ => rfl

/-- A token of the kind is taken if it is next. -/
theorem accept : Mirrors depth (accept kind) (accept kind) :=
  bind check fun _ => ite (bind advance fun _ => pure _) (pure _)

/-- A token of the kind is taken, or nothing is and the parser fails. -/
theorem expect : Mirrors depth (expect kind expected) (expect kind expected) :=
  bind accept fun _ => ite (pure _) unexpected

/-- What stands behind a token of the kind, if there is one. -/
theorem after? {x : ParserOn Gauge α} {y : Parser α} (h : Mirrors depth x y) :
    Mirrors depth (after? kind x) (after? kind y) :=
  bind accept fun _ => ite (bind h fun _ => pure _) (pure _)

/-- An identifier is taken if it is next. -/
theorem name? : Mirrors depth name? name? := by
  refine bind peek? fun next => ?_
  cases next.bind Token.identifier? with
  | none => exact pure _
  | some name => exact bind advance fun _ => pure _

/-- An identifier is taken, or nothing is and the parser fails. -/
theorem name : Mirrors depth (name expected) (name expected) := by
  refine bind name? fun found => ?_
  cases found with
  | none => exact unexpected
  | some name => exact pure _

/-- Whether a statement ends here without a `;` depends on the next token and its line alone. -/
theorem impliedTerminator : Mirrors depth impliedTerminator impliedTerminator :=
  bind check fun _ => ite (pure _) (bind atEnd fun _ => ite (pure _) newlineBefore)

/-- The end of a statement opens no level. -/
theorem terminator : Mirrors depth terminator terminator :=
  bind accept fun _ => ite (pure _) (bind impliedTerminator fun _ => ite (pure _) unexpected)

/-- Whether something can be stored into a node is seen from the node. -/
theorem requireAssignable {target : Node} :
    Mirrors depth (requireAssignable target) (requireAssignable target) :=
  ite (pure _) throw

/-- The bound on the height of a tree has nothing to do with the levels that are open. -/
theorem bounded {n : Node} : Mirrors depth (bounded n) (bounded n) := ite (pure _) throw

/-! ## Loops -/

/-- A loop that collects, by induction on the rounds that are left to it. -/
theorem collectWithin {item : ParserOn Gauge (Option α)} {item' : Parser (Option α)}
    (h : Mirrors depth item item') (budget : List Token) :
    Mirrors depth (collectWithin item budget) (collectWithin item' budget) := by
  induction budget with
  | nil =>
    rw [Parser.collectWithin, Parser.collectWithin]
    refine bind h fun found => ?_
    cases found with
    | none => exact pure _
    | some a => exact unexpected
  | cons token budget ih =>
    rw [Parser.collectWithin, Parser.collectWithin]
    refine bind h fun found => ?_
    cases found with
    | none => exact pure _
    | some a => exact bind ih fun _ => pure _

/-- A loop that collects has a round for each token ahead, and those are the same both ways. -/
theorem collect {item : ParserOn Gauge (Option α)} {item' : Parser (Option α)}
    (h : Mirrors depth item item') : Mirrors depth (collect item) (collect item') :=
  fun c => collectWithin h c.rest c

/-- A loop that extends a value, by induction on the rounds that are left to it. -/
theorem chainWithin {step : α → ParserOn Gauge (Option α)} {step' : α → Parser (Option α)}
    (h : ∀ a, Mirrors depth (step a) (step' a)) (a : α) (budget : List Token) :
    Mirrors depth (chainWithin step a budget) (chainWithin step' a budget) := by
  induction budget generalizing a with
  | nil =>
    rw [Parser.chainWithin, Parser.chainWithin]
    refine bind (h a) fun found => ?_
    cases found with
    | none => exact pure _
    | some b => exact unexpected
  | cons token budget ih =>
    rw [Parser.chainWithin, Parser.chainWithin]
    refine bind (h a) fun found => ?_
    cases found with
    | none => exact pure _
    | some b => exact ih b

/-- A loop that extends a value has a round for each token ahead as well. -/
theorem chain {step : α → ParserOn Gauge (Option α)} {step' : α → Parser (Option α)}
    (h : ∀ a, Mirrors depth (step a) (step' a)) (a : α) :
    Mirrors depth (chain step a) (chain step' a) :=
  fun c => chainWithin h a c.rest c

/-- A list with commas between its items. -/
theorem separated {item : ParserOn Gauge α} {item' : Parser α} (h : Mirrors depth item item') :
    Mirrors depth (separated item) (separated item') :=
  bind h fun _ => bind (collect (after? h)) fun _ => pure _

end Mirrors

/-- The productions that open a nesting level do the same at a depth as without a count. -/
structure MirrorsNested (depth : Nat) (g : NestedOn Gauge) (h : Nested) : Prop where
  ending : Mirrors depth g.ending h.ending
  statement : Mirrors depth g.statement h.statement
  block : Mirrors depth g.block h.block
  assignment (allowIn : Bool) : Mirrors depth (g.assignment allowIn) (h.assignment allowIn)
  unary : Mirrors depth g.unary h.unary
  construction : Mirrors depth g.construction h.construction

namespace Grammar

open Mirrors

variable {depth : Nat} {g : NestedOn Gauge} {h : Nested}

/-- A name behind a dot or a key of an object, whatever tokens it may be spelled with. -/
theorem property_mirrors {meaning : Token → Option String} :
    Mirrors depth (property meaning) (property meaning) := by
  refine .bind .peek? fun next => ?_
  cases next.bind meaning with
  | none => exact .unexpected
  | some name => exact .bind .advance fun _ => .pure _

section Productions

variable (hg : MirrorsNested depth g h)
include hg

/-! ## Expressions -/

/-- An expression opens a level for each of its parts, one after the other and not one in the other.
-/
theorem expression_mirrors (allowIn : Bool) :
    Mirrors depth (expression g allowIn) (expression h allowIn) := by
  refine .bind .here fun start => .bind (hg.assignment allowIn) fun first => ?_
  refine .bind .check fun _ => .ite ?_ (.pure _)
  exact .bind (.collect (.after? (hg.assignment allowIn))) fun _ => .finish

/-- Parentheses open no level themselves. The expression between them does. -/
theorem parenthesized_mirrors : Mirrors depth (parenthesized g) (parenthesized h) :=
  .bind .expect fun _ => .bind (expression_mirrors hg true) fun _ => .bind .expect fun _ => .pure _

omit hg in
/-- A list between parentheses opens what its items open. -/
theorem enclosedList_mirrors {form : Form} {item : ParserOn Gauge Node} {item' : Parser Node}
    (hitem : Mirrors depth item item') :
    Mirrors depth (enclosedList form item) (enclosedList form item') := by
  refine .bind .here fun start => .bind .expect fun _ => .bind .check fun _ => ?_
  exact .ite (.bind (.pure []) fun _ => .bind .expect fun _ => .finish)
    (.bind (.separated hitem) fun _ => .bind .expect fun _ => .finish)

/-- Each argument opens a level. -/
theorem arguments_mirrors : Mirrors depth (arguments g) (arguments h) :=
  enclosedList_mirrors (hg.assignment true)

omit hg in
/-- Parameters are names and open no level. -/
theorem parameters_mirrors : Mirrors depth parameters parameters :=
  enclosedList_mirrors (.bind .here fun _ => .bind .name fun _ => .finish)

/-- Of a function only the body opens a level. -/
theorem functionOf_mirrors (form : Form) (start : Position) :
    Mirrors depth (functionOf g form start) (functionOf h form start) :=
  .bind parameters_mirrors fun _ => .bind hg.block fun _ => .finish

/-- A function with or without a name, used as a value. -/
theorem functionExpression_mirrors :
    Mirrors depth (functionExpression g) (functionExpression h) :=
  .bind .here fun start => .bind .expect fun _ => .bind .name? fun name =>
    functionOf_mirrors hg (.functionExpression name) start

/-- An element of an array opens a level if it is not left out. -/
theorem element_mirrors : Mirrors depth (element g) (element h) := by
  refine .bind .check fun _ => .ite (.pure _) (.bind .check fun _ => .ite ?_ ?_)
  · exact .bind .emptyExpression fun _ => .bind .advance fun _ => .pure _
  · refine .bind (hg.assignment true) fun value => .bind .check fun _ => ?_
    exact .ite (.pure _) (.bind .expect fun _ => .pure _)

/-- The elements of an array are read by a loop, each at the depth of the array. -/
theorem arrayLiteral_mirrors : Mirrors depth (arrayLiteral g) (arrayLiteral h) :=
  .bind .here fun _ => .bind .advance fun _ => .bind (.collect (element_mirrors hg)) fun _ =>
    .bind .expect fun _ => .finish

/-- A key opens no level, and the value behind it does. -/
theorem member_mirrors : Mirrors depth (member g) (member h) := by
  refine .bind .check fun _ => .ite (.pure _) ?_
  refine .bind .here fun start => .bind property_mirrors fun key => .bind .expect fun _ => ?_
  refine .bind (hg.assignment true) fun value => .bind .finish fun result => ?_
  exact .bind .check fun _ => .ite (.pure _) (.bind .expect fun _ => .pure _)

/-- The members of an object are read by a loop, each at the depth of the object. -/
theorem objectLiteral_mirrors : Mirrors depth (objectLiteral g) (objectLiteral h) :=
  .bind .here fun _ => .bind .advance fun _ => .bind (.collect (member_mirrors hg)) fun _ =>
    .bind .expect fun _ => .finish

/-- The next token decides which kind of primary expression it is, one case for each kind. -/
theorem primary_mirrors : Mirrors depth (primary g) (primary h) := by
  refine .bind .here fun start => .bind .peek? fun next => ?_
  cases next with
  | none => exact .unexpected
  | some token =>
    dsimp only
    split
    · exact .bind .advance fun _ => .finish
    split
    · exact .bind .name fun _ => .finish
    · exact .bind .advance fun _ => .finish
    · exact functionExpression_mirrors hg
    · exact parenthesized_mirrors hg
    · exact arrayLiteral_mirrors hg
    · exact objectLiteral_mirrors hg
    · exact .unexpected

/-- Behind a dot stands a name, and between brackets an expression, which opens a level. -/
theorem memberAccess_mirrors (start : Position) (object : Node) :
    Mirrors depth (memberAccess g start object) (memberAccess h start object) := by
  refine .bind .accept fun _ => .ite ?_ ?_
  · exact .bind .here fun _ => .bind property_mirrors fun _ => .bind .finish fun _ => .finish
  · exact .bind .expect fun _ => .bind (expression_mirrors hg true) fun _ =>
      .bind .expect fun _ => .finish

/-- A member access that is applied to the value of the loop. -/
theorem memberStep_mirrors (start : Position) (object : Node) :
    Mirrors depth (memberStep g start object) (memberStep h start object) := by
  refine .bind .peekKind? fun kind => .ite ?_ (.pure _)
  exact .bind (memberAccess_mirrors hg start object) fun _ => .bind .bounded fun _ => .pure _

/-- A call or a member access that is applied to the value of the loop. -/
theorem callStep_mirrors (start : Position) (callee : Node) :
    Mirrors depth (callStep g start callee) (callStep h start callee) := by
  refine .bind .check fun _ => .ite ?_ (memberStep_mirrors hg start callee)
  exact .bind (arguments_mirrors hg) fun _ => .bind .finish fun _ => .bind .bounded fun _ => .pure _

/-- Another `new` right behind the first opens a level, anything else that is constructed does not.
-/
theorem construction_mirrors : Mirrors depth (construction g) (construction h) := by
  refine .bind .here fun start => .bind .advance fun _ => .bind .here fun calleeStart => ?_
  refine .bind .check fun _ => .ite (.bind hg.construction fun head => ?_)
    (.bind (primary_mirrors hg) fun head => ?_)
  all_goals
    refine .bind (.chain (memberStep_mirrors hg calleeStart) head) fun _ => .bind .check fun _ => ?_
    exact .ite (.bind (arguments_mirrors hg) fun _ => .finish) .finish

/-- Calls and member accesses in a row stay on one level, however many there are. -/
theorem callChain_mirrors : Mirrors depth (callChain g) (callChain h) := by
  refine .bind .here fun start => .bind .check fun _ => .ite ?_ ?_
  · exact .bind (construction_mirrors hg) (.chain (callStep_mirrors hg start))
  · exact .bind (primary_mirrors hg) (.chain (callStep_mirrors hg start))

/-- An update operator behind its operand opens no level. -/
theorem updated_mirrors : Mirrors depth (updated g) (updated h) := by
  refine .bind .here fun start => .bind (callChain_mirrors hg) fun operand => ?_
  refine .bind .newlineBefore fun _ => .ite (.pure _) (.bind .peekKind? fun kind => ?_)
  cases kind.bind UpdateOperator.ofKind? with
  | none => exact .pure _
  | some operator => exact .bind .requireAssignable fun _ => .bind .advance fun _ => .finish

/-- Each operator before its operand opens a level. -/
theorem unary_mirrors : Mirrors depth (unary g) (unary h) := by
  refine .bind .here fun start => .bind .peekKind? fun kind => ?_
  cases kind with
  | none => exact .unexpected
  | some kind =>
    dsimp only
    cases UpdateOperator.ofKind? kind with
    | some operator =>
      exact .bind .advance fun _ => .bind hg.unary fun _ => .bind .requireAssignable fun _ =>
        .finish
    | none =>
      cases UnaryOperator.ofKind? kind with
      | some operator => exact .bind .advance fun _ => .bind hg.unary fun _ => .finish
      | none => exact updated_mirrors hg

omit hg in
/-- Whether a binary operator goes on with an expression is seen from the next token. -/
theorem binaryOperator?_mirrors (allowIn : Bool) (loosest : Nat) :
    Mirrors depth (binaryOperator? allowIn loosest) (binaryOperator? allowIn loosest) := by
  refine .bind .peekKind? fun kind => ?_
  cases kind.bind BinaryOperator.ofKind? with
  | none => exact .pure _
  | some operator => exact .ite (.pure _) (.ite (.pure _) (.pure _))

omit hg in
/-- A binary operator with its right operand, which is mirrored if its operand is. -/
theorem binaryStep_mirrors {right : BinaryOperator → ParserOn Gauge Node}
    {right' : BinaryOperator → Parser Node}
    (hright : ∀ operator, Mirrors depth (right operator) (right' operator)) (allowIn : Bool)
    (loosest : Nat) (start : Position) (left : Node) :
    Mirrors depth (binaryStep right allowIn loosest start left)
      (binaryStep right' allowIn loosest start left) := by
  refine .bind (binaryOperator?_mirrors allowIn loosest) fun found => ?_
  cases found with
  | none => exact .pure _
  | some operator =>
    exact .bind .advance fun _ => .bind (hright operator) fun _ => .bind .finish fun _ =>
      .bind .bounded fun _ => .pure _

/-- Binary operators open no level. The induction is on the bound on how deep they nest. -/
theorem binary_mirrors (allowIn : Bool) (levels loosest : Nat) :
    Mirrors depth (binary g allowIn levels loosest) (binary h allowIn levels loosest) := by
  induction levels generalizing loosest with
  | zero => exact unary_mirrors hg
  | succ levels ih =>
    refine .bind .here fun start => .bind (unary_mirrors hg) (.chain ?_)
    exact binaryStep_mirrors (fun operator => ih operator.precedence) allowIn loosest start

/-- A test and, behind `?`, two expressions that open a level each. -/
theorem conditional_mirrors (allowIn : Bool) :
    Mirrors depth (conditional g allowIn) (conditional h allowIn) := by
  refine .bind .here fun start => .bind (binary_mirrors hg allowIn _ _) fun test => ?_
  refine .bind .accept fun _ => .ite ?_ (.pure _)
  exact .bind (hg.assignment true) fun _ => .bind .expect fun _ =>
    .bind (hg.assignment allowIn) fun _ => .finish

/-- Behind an assignment operator stands another assignment, one level deeper. -/
theorem assignment_mirrors (allowIn : Bool) :
    Mirrors depth (assignment g allowIn) (assignment h allowIn) := by
  refine .bind .here fun start => .bind (conditional_mirrors hg allowIn) fun target => ?_
  refine .bind .peekKind? fun kind => ?_
  cases kind.bind AssignOperator.ofKind? with
  | none => exact .pure _
  | some operator =>
    exact .bind .requireAssignable fun _ => .bind .advance fun _ =>
      .bind (hg.assignment allowIn) fun _ => .finish

/-! ## Statements -/

/-- A function with a name, as a statement. -/
theorem functionDeclaration_mirrors :
    Mirrors depth (functionDeclaration g) (functionDeclaration h) :=
  .bind .here fun start => .bind .expect fun _ => .bind .name fun name =>
    functionOf_mirrors hg (.functionDeclaration name) start

/-- A function declaration stays on its level, and any other statement opens one. -/
theorem sourceElement_mirrors : Mirrors depth (sourceElement g) (sourceElement h) :=
  .bind .check fun _ => .ite (functionDeclaration_mirrors hg) hg.statement

/-- A member of a block, up to the brace that closes it. -/
theorem blockMember_mirrors : Mirrors depth (blockMember g) (blockMember h) := by
  refine .bind .check fun _ => .ite (.pure _) (.bind .atEnd fun _ => .ite .unexpected ?_)
  exact .bind (sourceElement_mirrors hg) fun _ => .pure _

/-- The members of a block are read by a loop, each at the depth of the block. -/
theorem block_mirrors : Mirrors depth (block g) (block h) :=
  .bind .here fun _ => .bind .expect fun _ => .bind (.collect (blockMember_mirrors hg)) fun _ =>
    .bind .expect fun _ => .finish

/-- An expression up to the end of its statement. -/
theorem expressionStatement_mirrors :
    Mirrors depth (expressionStatement g) (expressionStatement h) :=
  .bind .here fun _ => .bind (expression_mirrors hg true) fun _ => .bind hg.ending fun _ => .finish

/-- A name that is defined, with the value behind `=`, which opens a level. -/
theorem definition_mirrors (allowIn : Bool) :
    Mirrors depth (definition g allowIn) (definition h allowIn) :=
  .bind .here fun _ => .bind .name fun _ => .bind (.after? (hg.assignment allowIn)) fun _ => .finish

/-- The definitions behind `var`, `let` or `const`. -/
theorem declarations_mirrors (allowIn : Bool) :
    Mirrors depth (declarations g allowIn) (declarations h allowIn) := by
  refine .bind .here fun start => .bind .peekKind? fun kind => ?_
  cases kind.bind DeclarationKind.ofKind? with
  | none => exact .unexpected
  | some declaration =>
    exact .bind .advance fun _ => .bind (.separated (definition_mirrors hg allowIn)) fun _ =>
      .finish

/-- Definitions up to the end of their statement. -/
theorem variableStatement_mirrors : Mirrors depth (variableStatement g) (variableStatement h) :=
  .bind .here fun _ => .bind (declarations_mirrors hg true) fun _ => .bind hg.ending fun _ =>
    .finish

/-- The branches of an `if` open a level each. -/
theorem ifStatement_mirrors : Mirrors depth (ifStatement g) (ifStatement h) :=
  .bind .here fun _ => .bind .advance fun _ => .bind (parenthesized_mirrors hg) fun _ =>
    .bind hg.statement fun _ => .bind (.after? hg.statement) fun _ => .finish

/-- A condition and the statement below it, of a `while` or a `with`. -/
theorem guarded_mirrors (form : Form) : Mirrors depth (guarded g form) (guarded h form) :=
  .bind .here fun _ => .bind .advance fun _ => .bind (parenthesized_mirrors hg) fun _ =>
    .bind hg.statement fun _ => .finish

/-- The body of a `do` opens a level, and its condition follows at the depth of the loop. -/
theorem doWhileStatement_mirrors : Mirrors depth (doWhileStatement g) (doWhileStatement h) :=
  .bind .here fun _ => .bind .advance fun _ => .bind hg.statement fun _ => .bind .expect fun _ =>
    .bind (parenthesized_mirrors hg) fun _ => .bind .accept fun _ => .finish

/-- What follows `in` in the head of a loop, and the body of the loop. -/
theorem forInRest_mirrors (start : Position) (left : Node) :
    Mirrors depth (forInRest g start left) (forInRest h start left) :=
  .bind (expression_mirrors hg true) fun _ => .bind .expect fun _ => .bind hg.statement fun _ =>
    .finish

/-- A test or an update in the head of a loop, which may be missing. -/
theorem forClause_mirrors (closer : TokenKind) :
    Mirrors depth (forClause g closer) (forClause h closer) :=
  .bind .check fun _ => .ite .emptyExpression (expression_mirrors hg true)

/-- The test, the update and the body of a loop. -/
theorem forRest_mirrors (start : Position) (init : Node) :
    Mirrors depth (forRest g start init) (forRest h start init) :=
  .bind .expect fun _ => .bind (forClause_mirrors hg _) fun _ => .bind .expect fun _ =>
    .bind (forClause_mirrors hg _) fun _ => .bind .expect fun _ => .bind hg.statement fun _ =>
      .finish

/-- Three kinds of loops: without a start, with definitions and with an expression. The last two may
go on with `in`. -/
theorem forStatement_mirrors : Mirrors depth (forStatement g) (forStatement h) := by
  refine .bind .here fun start => .bind .advance fun _ => .bind .expect fun _ => ?_
  refine .bind .check fun _ => .ite ?_ (.bind .peekKind? fun kind => .ite ?_ ?_)
  · exact .bind .emptyExpression fun init => forRest_mirrors hg start init
  · refine .bind (declarations_mirrors hg false) fun init => .bind .accept fun _ => ?_
    exact .ite (forInRest_mirrors hg start init) (forRest_mirrors hg start init)
  · refine .bind (expression_mirrors hg false) fun init => .bind .check fun _ => .ite ?_ ?_
    · exact .bind .requireAssignable fun _ => .bind .advance fun _ =>
        forInRest_mirrors hg start init
    · exact forRest_mirrors hg start init

/-- `break` and `continue` have at most a label and open no level. -/
theorem jump_mirrors (form : Option String → Form) : Mirrors depth (jump g form) (jump h form) := by
  have hlabel : Mirrors depth label? label? := .bind .newlineBefore fun _ => .ite (.pure _) .name?
  exact .bind .here fun _ => .bind .advance fun _ => .bind hlabel fun _ => .bind hg.ending fun _ =>
    .finish

/-- What `return` gives back, if anything stands on its line. -/
theorem returnValue?_mirrors : Mirrors depth (returnValue? g) (returnValue? h) := by
  refine .bind .check fun _ => .ite (.pure _) (.bind .impliedTerminator fun _ => .ite (.pure _) ?_)
  exact .bind (expression_mirrors hg true) fun _ => .pure _

/-- A `return` up to the end of its statement. -/
theorem returnStatement_mirrors : Mirrors depth (returnStatement g) (returnStatement h) :=
  .bind .here fun _ => .bind .advance fun _ => .bind (returnValue?_mirrors hg) fun _ =>
    .bind hg.ending fun _ => .finish

omit hg in
/-- `default` and its colon are looked at together, and then taken together or not at all. -/
theorem defaultLabel_mirrors : Mirrors depth defaultLabel defaultLabel := by
  refine .of_eq fun c peak => ?_
  unfold defaultLabel
  simp only [HasCursor.cursor]
  split
  · split <;> rfl
  · rfl

/-- The test of a case, or `default`. -/
theorem caseTest?_mirrors : Mirrors depth (caseTest? g) (caseTest? h) := by
  refine .bind .accept fun _ => .ite ?_ (.bind defaultLabel_mirrors fun _ => ?_)
  · exact .bind (expression_mirrors hg true) fun _ => .bind .expect fun _ => .pure _
  · exact .ite (.pure _) .unexpected

/-- A statement of a case, up to the next case or the closing brace. -/
theorem caseMember_mirrors : Mirrors depth (caseMember g) (caseMember h) := by
  refine .bind .peekKind? fun kind => ?_
  split
  any_goals exact .pure _
  exact .bind (sourceElement_mirrors hg) fun _ => .pure _

/-- A case with its statements. -/
theorem switchCase_mirrors : Mirrors depth (switchCase g) (switchCase h) := by
  refine .bind .accept fun _ => .ite (.pure _) ?_
  exact .bind .here fun _ => .bind (caseTest?_mirrors hg) fun _ =>
    .bind (.collect (caseMember_mirrors hg)) fun _ => .bind .finish fun _ => .pure _

/-- The cases of a `switch` are read by a loop, each at the depth of the `switch`. -/
theorem switchStatement_mirrors : Mirrors depth (switchStatement g) (switchStatement h) :=
  .bind .here fun _ => .bind .advance fun _ => .bind (parenthesized_mirrors hg) fun _ =>
    .bind .expect fun _ => .bind (.collect (switchCase_mirrors hg)) fun _ => .finish

/-- A `throw` with its expression, up to the end of its statement. -/
theorem throwStatement_mirrors : Mirrors depth (throwStatement g) (throwStatement h) :=
  .bind .here fun _ => .bind .advance fun _ => .bind (expression_mirrors hg true) fun _ =>
    .bind hg.ending fun _ => .finish

/-- A handler has a block, which opens a level. -/
theorem handler?_mirrors : Mirrors depth (handler? g) (handler? h) := by
  refine .bind .here fun start => .bind .accept fun _ => .ite ?_ (.pure _)
  exact .bind .expect fun _ => .bind .name fun _ => .bind .expect fun _ => .bind hg.block fun _ =>
    .bind .finish fun _ => .pure _

/-- The blocks of a `try` open a level each, one after the other. -/
theorem tryStatement_mirrors : Mirrors depth (tryStatement g) (tryStatement h) := by
  refine .bind .here fun start => .bind .advance fun _ => .bind hg.block fun body => ?_
  refine .bind (handler?_mirrors hg) fun _ => .bind (.after? hg.block) fun _ => ?_
  exact .ite .throw .finish

/-- The next token decides which kind of statement it is, one case for each kind. -/
theorem statement_mirrors : Mirrors depth (statement g) (statement h) := by
  refine .bind .peekKind? fun kind => ?_
  split
  · exact .unexpected
  · exact hg.block
  · exact .bind .here fun _ => .bind .advance fun _ => .finish
  · exact variableStatement_mirrors hg
  · exact variableStatement_mirrors hg
  · exact variableStatement_mirrors hg
  · exact ifStatement_mirrors hg
  · exact guarded_mirrors hg _
  · exact doWhileStatement_mirrors hg
  · exact forStatement_mirrors hg
  · exact jump_mirrors hg _
  · exact jump_mirrors hg _
  · exact returnStatement_mirrors hg
  · exact guarded_mirrors hg _
  · exact switchStatement_mirrors hg
  · exact throwStatement_mirrors hg
  · exact tryStatement_mirrors hg
  · exact .bind .here fun _ => .bind .advance fun _ => .bind hg.ending fun _ => .finish
  · exact functionDeclaration_mirrors hg
  · exact expressionStatement_mirrors hg

/-- The statements of a program are read by a loop, with no level open between them. -/
theorem programOf_mirrors : Mirrors depth (programOf g) (programOf h) := by
  have hmember : Mirrors depth (programMember g) (programMember h) :=
    .bind .atEnd fun _ => .ite (.pure _) (.bind (sourceElement_mirrors hg) fun _ => .pure _)
  exact .bind (.of_eq fun _ _ => rfl) fun _ => .bind (.collect hmember) fun _ => .finish

end Productions

/-! ## Levels -/

/-- A level is open while a production of it runs, and closed afterwards. -/
theorem deeper_mirrors {α : Type} {x : ParserOn Gauge α} {y : Parser α} {depth : Nat}
    (hx : Mirrors (depth + 1) x y) (hdepth : depth < maxNesting) : Mirrors depth (deeper x) y := by
  intro c peak hpeak
  obtain ⟨peak', hpeak', hx⟩ := hx c (max peak (depth + 1)) (by omega)
  refine ⟨peak', hpeak', ?_⟩
  rw [deeper, if_neg (by dsimp only; omega), hx]
  cases y c with
  | ok a c' => rfl
  | error e c' => rfl

/-- No level is opened beyond the last. -/
theorem deeper_mirrors_tooDeep {x : ParserOn Gauge Node} : Mirrors maxNesting (deeper x) tooDeep :=
  .of_eq fun _ _ => if_pos (Nat.le_refl _)

/-- Where all levels are open, a production that would open one more fails both ways. -/
theorem mirrorsNested_tooDeep (bottom : NestedOn Gauge) (fuel : Nat) :
    MirrorsNested maxNesting (counted bottom (fuel + 1)) (nested 0) where
  ending := .terminator
  statement := deeper_mirrors_tooDeep
  block := deeper_mirrors_tooDeep
  assignment _ := deeper_mirrors_tooDeep
  unary := deeper_mirrors_tooDeep
  construction := deeper_mirrors_tooDeep

/-- One level further out, if the productions inside agree with one more level open. -/
theorem mirrorsNested_deeper {bottom : NestedOn Gauge} {depth fuel levels : Nat}
    (h : MirrorsNested (depth + 1) (counted bottom fuel) (nested levels))
    (hdepth : depth < maxNesting) :
    MirrorsNested depth (counted bottom (fuel + 1)) (nested (levels + 1)) where
  ending := .terminator
  statement := deeper_mirrors (statement_mirrors h) hdepth
  block := deeper_mirrors (block_mirrors h) hdepth
  assignment allowIn := deeper_mirrors (assignment_mirrors h allowIn) hdepth
  unary := deeper_mirrors (unary_mirrors h) hdepth
  construction := deeper_mirrors (construction_mirrors h) hdepth

/-- The levels that are left and those that are open make `maxNesting` together. One round of fuel
more than the levels that are left is enough, since the last one only fails, so it does not matter
what is at the bottom. -/
theorem counted_mirrors (bottom : NestedOn Gauge) {levels fuel : Nat}
    (hlevels : levels ≤ maxNesting) (hfuel : levels < fuel) :
    MirrorsNested (maxNesting - levels) (counted bottom fuel) (nested levels) := by
  induction levels generalizing fuel with
  | zero =>
    obtain ⟨fuel, rfl⟩ := Nat.exists_eq_add_one_of_ne_zero (Nat.ne_of_gt hfuel)
    exact mirrorsNested_tooDeep bottom fuel
  | succ levels ih =>
    obtain ⟨fuel, rfl⟩ := Nat.exists_eq_add_one_of_ne_zero (Nat.ne_of_gt (Nat.zero_lt_of_lt hfuel))
    have hinner := ih (by omega) (Nat.lt_of_succ_lt_succ hfuel)
    rw [show maxNesting - levels = maxNesting - (levels + 1) + 1 by omega] at hinner
    exact mirrorsNested_deeper hinner (by omega)

end Grammar

/-! ## Calls -/

/-- What a parser is asked for. -/
inductive Call where
  | program
  | expression (allowIn : Bool)
deriving DecidableEq, Repr

namespace Call

/-- What a call does with a cursor. -/
def parser : Call → Parser Node
  | .program => Grammar.program
  | .expression allowIn => Grammar.topExpression allowIn

/-- What a call does with a count of nesting levels. A program starts with no level open. -/
def on (g : NestedOn Gauge) : Call → ParserOn Gauge Node
  | .program => fun s => Grammar.programOf g { s with depth := 0 }
  | .expression allowIn => Grammar.expression g allowIn

/-- A call with more fuel than there are levels does what the call without a count does. -/
theorem on_counted_mirrors (call : Call) {bottom : NestedOn Gauge} {fuel : Nat}
    (hfuel : Grammar.maxNesting < fuel) :
    Mirrors 0 (call.on (Grammar.counted bottom fuel)) call.parser := by
  have hcounted : MirrorsNested 0 (Grammar.counted bottom fuel) Grammar.outermost := by
    have hlevels := Grammar.counted_mirrors bottom (Nat.le_refl Grammar.maxNesting) hfuel
    rwa [Nat.sub_self] at hlevels
  cases call with
  | program => exact Grammar.programOf_mirrors hcounted
  | expression allowIn => exact Grammar.expression_mirrors hcounted allowIn

/-- A call with enough fuel. -/
def counting (call : Call) : ParserOn Gauge Node :=
  call.on (Grammar.counted Grammar.closed (Grammar.maxNesting + 1))

/-- So does a call with exactly one round of fuel more. -/
theorem counting_mirrors (call : Call) : Mirrors 0 call.counting call.parser :=
  call.on_counted_mirrors (Nat.lt_succ_self _)

end Call

end ScriptLint
