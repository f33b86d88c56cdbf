import ScriptLint.Grammar.Expression

/-!
# Statements

The productions of statements. Blocks and statements inside statements open a nesting level, so
they are reached through `Nested`; the declaration of a function opens one only for its body.
-/

namespace ScriptLint.Grammar

open ScriptLint.Parser HasCursor

variable {σ : Type} [HasCursor σ]

/-- The declaration of a function. -/
def functionDeclaration (g : NestedOn σ) : ParserOn σ Node := do
  let start ← here
  expect (.keyword .functionKw) "'function'"
  let name ← name "function name"
  functionOf g (.functionDeclaration name) start

/-- A function declaration or a statement. -/
def sourceElement (g : NestedOn σ) : ParserOn σ Node := do
  if ← check (.keyword .functionKw) then functionDeclaration g else g.statement

/-- A member of a block, unless the block ends. -/
def blockMember (g : NestedOn σ) : ParserOn σ (Option Node) := do
  if ← check (.punctuator .rightCurly) then
    return none
  else if ← atEnd then
    unexpected "'\x7d'"
  else
    let member ← sourceElement g
    return some member

/-- Statements in braces. -/
def block (g : NestedOn σ) : ParserOn σ Node := do
  let start ← here
  expect (.punctuator .leftCurly) "'\x7b'"
  let body ← collect (blockMember g)
  expect (.punctuator .rightCurly) "'\x7d'"
  finish .compoundStatement start body

/-- An expression as a statement. -/
def expressionStatement (g : NestedOn σ) : ParserOn σ Node := do
  let start ← here
  let value ← expression g true
  g.ending
  finish .expressionStatement start [value]

/-- A name with an optional initial value. -/
def definition (g : NestedOn σ) (allowIn : Bool) : ParserOn σ Node := do
  let start ← here
  let name ← name "variable name"
  let init ← after? (.punctuator .assign) (g.assignment allowIn)
  finish (.variableDefinition name init.isSome) start init.toList

/-- The keyword of a declaration and its definitions. -/
def declarations (g : NestedOn σ) (allowIn : Bool) : ParserOn σ Node := do
  let start ← here
  match (← peekKind?).bind DeclarationKind.ofKind? with
  | none => unexpected "'var', 'let' or 'const'"
  | some declaration =>
    advance
    let definitions ← separated (definition g allowIn)
    finish (.variableDefinitionList declaration) start definitions

/-- A declaration as a statement, whose span takes in the terminator. -/
def variableStatement (g : NestedOn σ) : ParserOn σ Node := do
  let start ← here
  let list ← declarations g true
  g.ending
  finish list.form start list.children

/-- `if` with an optional `else`, which goes with the closest `if` that can have it. -/
def ifStatement (g : NestedOn σ) : ParserOn σ Node := do
  let start ← here
  advance
  let test ← parenthesized g
  let consequent ← g.statement
  let alternate ← after? (.keyword .elseKw) g.statement
  finish (.ifStatement alternate.isSome) start (test :: consequent :: alternate.toList)

/-- An expression in parentheses and a statement, behind the keyword of `form`. -/
def guarded (g : NestedOn σ) (form : Form) : ParserOn σ Node := do
  let start ← here
  advance
  let head ← parenthesized g
  let body ← g.statement
  finish form start [head, body]

/-- A loop with its test at the end. Its terminator is optional wherever it stands. -/
def doWhileStatement (g : NestedOn σ) : ParserOn σ Node := do
  let start ← here
  advance
  let body ← g.statement
  expect (.keyword .whileKw) "'while'"
  let test ← parenthesized g
  let _ ← accept (.punctuator .semicolon)
  finish .doWhileStatement start [body, test]

/-- What follows `in` in the head of a loop over the members of an object. -/
def forInRest (g : NestedOn σ) (start : Position) (left : Node) : ParserOn σ Node := do
  let right ← expression g true
  expect (.punctuator .rightParen) "')'"
  let body ← g.statement
  finish .forInStatement start [left, right, body]

/-- An expression in the head of a loop, which is empty if `closer` follows. -/
def forClause (g : NestedOn σ) (closer : TokenKind) : ParserOn σ Node := do
  if ← check closer then emptyExpression else expression g true

/-- What follows the first clause in the head of a loop. -/
def forRest (g : NestedOn σ) (start : Position) (init : Node) : ParserOn σ Node := do
  expect (.punctuator .semicolon) "';'"
  let test ← forClause g (.punctuator .semicolon)
  expect (.punctuator .semicolon) "';'"
  let update ← forClause g (.punctuator .rightParen)
  expect (.punctuator .rightParen) "')'"
  let body ← g.statement
  finish .forStatement start [init, test, update, body]

/-- A loop with three clauses, or over the members of an object. In the first clause `in` is no
operator, so that it can end the clause. -/
def forStatement (g : NestedOn σ) : ParserOn σ Node := do
  let start ← here
  advance
  expect (.punctuator .leftParen) "'('"
  if ← check (.punctuator .semicolon) then
    let init ← emptyExpression
    forRest g start init
  else if ((← peekKind?).bind DeclarationKind.ofKind?).isSome then
    let init ← declarations g false
    if ← accept (.keyword .inKw) then forInRest g start init else forRest g start init
  else
    let init ← expression g false
    if ← check (.keyword .inKw) then
      requireAssignable init
      advance
      forInRest g start init
    else
      forRest g start init

/-- A label on the line of the keyword before it. -/
def label? : ParserOn σ (Option String) := do
  if ← newlineBefore then return none else name?

/-- `break` or `continue` with an optional label. -/
def jump (g : NestedOn σ) (form : Option String → Form) : ParserOn σ Node := do
  let start ← here
  advance
  let label ← label?
  g.ending
  finish (form label) start []

/-- The value of a `return`, which stands on its line. -/
def returnValue? (g : NestedOn σ) : ParserOn σ (Option Node) := do
  if ← check (.punctuator .semicolon) then
    return none
  else if ← impliedTerminator then
    return none
  else
    let value ← expression g true
    return some value

/-- `return` with an optional value. -/
def returnStatement (g : NestedOn σ) : ParserOn σ Node := do
  let start ← here
  advance
  let value ← returnValue? g
  g.ending
  finish (.returnStatement value.isSome) start value.toList

/-- Takes `default` and the colon behind it, if both are next. -/
def defaultLabel : ParserOn σ Bool := fun s =>
  match (cursor s).rest with
  | first :: second :: _ =>
    if first.kind = .keyword .defaultKw ∧ second.kind = .punctuator .colon then
      .ok true (moveTo s (cursor s).advance.advance)
    else .ok false s
  | _ => .ok false s

/-- The test of a case, or none for the default. -/
def caseTest? (g : NestedOn σ) : ParserOn σ (Option Node) := do
  if ← accept (.keyword .caseKw) then
    let test ← expression g true
    expect (.punctuator .colon) "':'"
    return some test
  else if ← defaultLabel then
    return none
  else
    unexpected "'case', 'default' or '\x7d'"

/-- A statement of a case, unless the case ends. -/
def caseMember (g : NestedOn σ) : ParserOn σ (Option Node) := do
  match ← peekKind? with
  | none
  | some (.keyword .caseKw)
  | some (.keyword .defaultKw)
  | some (.punctuator .rightCurly) => return none
  | some _ =>
    let member ← sourceElement g
    return some member

/-- A case of a `switch` with its statements, unless the `switch` ends. -/
def switchCase (g : NestedOn σ) : ParserOn σ (Option Node) := do
  if ← accept (.punctuator .rightCurly) then
    return none
  else
    let start ← here
    let test ← caseTest? g
    let consequent ← collect (caseMember g)
    let result ← finish (.switchCase test.isSome) start (test.toList ++ consequent)
    return some result

/-- A choice between cases. -/
def switchStatement (g : NestedOn σ) : ParserOn σ Node := do
  let start ← here
  advance
  let discriminant ← parenthesized g
  expect (.punctuator .leftCurly) "'\x7b'"
  let cases ← collect (switchCase g)
  finish .switchStatement start (discriminant :: cases)

/-- `throw` with its value. -/
def throwStatement (g : NestedOn σ) : ParserOn σ Node := do
  let start ← here
  advance
  let value ← expression g true
  g.ending
  finish .throwStatement start [value]

/-- The handler of a `try`. -/
def handler? (g : NestedOn σ) : ParserOn σ (Option Node) := do
  let start ← here
  if ← accept (.keyword .catchKw) then
    expect (.punctuator .leftParen) "'('"
    let parameter ← name "catch parameter"
    expect (.punctuator .rightParen) "')'"
    let body ← g.block
    let clause ← finish (.catchClause parameter) start [body]
    return some clause
  else
    return none

/-- A block with a handler, a finalizer or both. -/
def tryStatement (g : NestedOn σ) : ParserOn σ Node := do
  let start ← here
  advance
  let body ← g.block
  let handler ← handler? g
  let finalizer ← after? (.keyword .finallyKw) g.block
  if handler.isNone ∧ finalizer.isNone then
    throw (.missingCatchOrFinally start)
  else
    finish (.tryStatement handler.isSome finalizer.isSome) start
      (body :: (handler.toList ++ finalizer.toList))

/-- A statement of one token. -/
def emptyStatement : ParserOn σ Node := do
  let start ← here
  advance
  finish .emptyStatement start []

/-- A statement of one keyword. -/
def debuggerStatement (g : NestedOn σ) : ParserOn σ Node := do
  let start ← here
  advance
  g.ending
  finish .debuggerStatement start []

/-- A statement, which its first token tells apart from the others. -/
def statement (g : NestedOn σ) : ParserOn σ Node := do
  match ← peekKind? with
  | none => unexpected "statement"
  | some (.punctuator .leftCurly) => g.block
  | some (.punctuator .semicolon) => emptyStatement
  | some (.keyword .varKw)
  | some (.keyword .letKw)
  | some (.keyword .constKw) => variableStatement g
  | some (.keyword .ifKw) => ifStatement g
  | some (.keyword .whileKw) => guarded g .whileStatement
  | some (.keyword .doKw) => doWhileStatement g
  | some (.keyword .forKw) => forStatement g
  | some (.keyword .continueKw) => jump g .continueStatement
  | some (.keyword .breakKw) => jump g .breakStatement
  | some (.keyword .returnKw) => returnStatement g
  | some (.keyword .withKw) => guarded g .withStatement
  | some (.keyword .switchKw) => switchStatement g
  | some (.keyword .throwKw) => throwStatement g
  | some (.keyword .tryKw) => tryStatement g
  | some (.keyword .debuggerKw) => debuggerStatement g
  | some (.keyword .functionKw) => functionDeclaration g
  | some _ => expressionStatement g

end ScriptLint.Grammar
