import ScriptLint.Grammar.Repetition

/-!
# Expressions

The productions of expressions. A production that stands below another one in the grammar, but
for a nesting level, is called directly. The five productions that open a nesting level are
reached through `Nested`, which the productions take as an argument: it stands for the same
grammar with one level less, and where no level is left its productions fail.
-/

namespace ScriptLint

open ScriptLint.Parser

/-- The productions that open a nesting level, and what ends a statement. -/
structure NestedOn (σ : Type) where
  /-- The end of a statement that has a terminator. -/
  ending : ParserOn σ Unit
  statement : ParserOn σ Node
  block : ParserOn σ Node
  /-- An expression without commas; `in` is an operator in it only if `allowIn`. -/
  assignment : (allowIn : Bool) → ParserOn σ Node
  unary : ParserOn σ Node
  construction : ParserOn σ Node

/-- The productions that open a nesting level, over cursors alone. -/
abbrev Nested := NestedOn Cursor

/-- The literal that a token stands for. -/
def Token.literal? (t : Token) : Option LiteralValue :=
  match t.kind, t.value with
  | .numeric, .number value => some (.number value)
  | .string, .text value => some (.string value)
  | .boolean, .boolean value => some (.boolean value)
  | .null, _ => some .null
  | .undefined, _ => some .undefined
  | _, _ => none

/-- The name that a token stands for behind a dot, where reserved words are names too. -/
def Token.propertyName? (t : Token) : Option String :=
  match t.value with
  | .identifier name => some name
  | .keyword word => some word
  | .boolean value => some (boolWord value)
  | .null => some "null"
  | .undefined => some "undefined"
  | _ => none

/-- The key that a token stands for in an object literal. -/
def Token.propertyKey? (t : Token) : Option String :=
  match t.value with
  | .text value => some value
  | .number value => some value.render
  | _ => t.propertyName?

namespace Grammar

variable {σ : Type} [HasCursor σ]

/-- Takes the token that stands for a property, read by `meaning`. -/
def property (meaning : Token → Option String) : ParserOn σ String := do
  match (← peek?).bind meaning with
  | some name =>
    advance
    return name
  | none => unexpected "property name"

/-- One or more expressions with commas between them. -/
def expression (g : NestedOn σ) (allowIn : Bool) : ParserOn σ Node := do
  let start ← here
  let first ← g.assignment allowIn
  if ← check (.punctuator .comma) then
    let others ← collect (after? (.punctuator .comma) (g.assignment allowIn))
    finish .sequenceExpression start (first :: others)
  else
    return first

/-- An expression in parentheses, which leave no trace in the tree. -/
def parenthesized (g : NestedOn σ) : ParserOn σ Node := do
  expect (.punctuator .leftParen) "'('"
  let inner ← expression g true
  expect (.punctuator .rightParen) "')'"
  return inner

/-- Items in parentheses with commas between them. -/
def enclosedList (form : Form) (item : ParserOn σ Node) : ParserOn σ Node := do
  let start ← here
  expect (.punctuator .leftParen) "'('"
  let items ← if ← check (.punctuator .rightParen) then pure [] else separated item
  expect (.punctuator .rightParen) "')'"
  finish form start items

/-- The arguments of a call. -/
def arguments (g : NestedOn σ) : ParserOn σ Node :=
  enclosedList .functionArgumentList (g.assignment true)

/-- A parameter of a function. -/
def parameter : ParserOn σ Node := do
  let start ← here
  let name ← name "parameter name"
  finish (.formalParameter name) start []

/-- The parameters of a function. -/
def parameters : ParserOn σ Node :=
  enclosedList .formalParameterList parameter

/-- The parameters and the body of a function that starts at `start`. -/
def functionOf (g : NestedOn σ) (form : Form) (start : Position) : ParserOn σ Node := do
  let parameters ← parameters
  let body ← g.block
  finish form start [parameters, body]

/-- A function inside an expression, whose name may be missing. -/
def functionExpression (g : NestedOn σ) : ParserOn σ Node := do
  let start ← here
  expect (.keyword .functionKw) "'function'"
  let name ← name?
  functionOf g (.functionExpression name) start

/-- An element of an array with the comma behind it, or a hole, which is a comma alone. -/
def element (g : NestedOn σ) : ParserOn σ (Option Node) := do
  if ← check (.punctuator .rightBracket) then
    return none
  else if ← check (.punctuator .comma) then
    let hole ← emptyExpression
    advance
    return some hole
  else
    let value ← g.assignment true
    if ← check (.punctuator .rightBracket) then
      return some value
    else
      expect (.punctuator .comma) "',' or ']'"
      return some value

/-- An array literal. -/
def arrayLiteral (g : NestedOn σ) : ParserOn σ Node := do
  let start ← here
  advance
  let elements ← collect (element g)
  expect (.punctuator .rightBracket) "']'"
  finish .arrayExpression start elements

/-- A key of an object literal and its value, with the comma behind them. -/
def member (g : NestedOn σ) : ParserOn σ (Option Node) := do
  if ← check (.punctuator .rightCurly) then
    return none
  else
    let start ← here
    let key ← property Token.propertyKey?
    expect (.punctuator .colon) "':'"
    let value ← g.assignment true
    let result ← finish (.property key) start [value]
    if ← check (.punctuator .rightCurly) then
      return some result
    else
      expect (.punctuator .comma) "',' or '\x7d'"
      return some result

/-- An object literal. -/
def objectLiteral (g : NestedOn σ) : ParserOn σ Node := do
  let start ← here
  advance
  let members ← collect (member g)
  expect (.punctuator .rightCurly) "'\x7d'"
  finish .objectExpression start members

/-- An expression that does not end in an operator, a call or a member access. -/
def primary (g : NestedOn σ) : ParserOn σ Node := do
  let start ← here
  match ← peek? with
  | none => unexpected "expression"
  | some token =>
    match token.literal? with
    | some value =>
      advance
      finish (.literal value) start []
    | none =>
      match token.kind with
      | .identifier =>
        let name ← name "identifier"
        finish (.identifier name) start []
      | .keyword .thisKw =>
        advance
        finish .thisExpression start []
      | .keyword .functionKw => functionExpression g
      | .punctuator .leftParen => parenthesized g
      | .punctuator .leftBracket => arrayLiteral g
      | .punctuator .leftCurly => objectLiteral g
      | _ => unexpected "expression"

/-- A dot and a name, or an expression in brackets, applied to `object`. -/
def memberAccess (g : NestedOn σ) (start : Position) (object : Node) : ParserOn σ Node := do
  if ← accept (.punctuator .dot) then
    let nameStart ← here
    let name ← property Token.propertyName?
    let key ← finish (.literal (.string name)) nameStart []
    finish (.memberExpression false) start [object, key]
  else
    expect (.punctuator .leftBracket) "'['"
    let key ← expression g true
    expect (.punctuator .rightBracket) "']'"
    finish (.memberExpression true) start [object, key]

/-- Extends an expression that starts at `start` by a member access. -/
def memberStep (g : NestedOn σ) (start : Position) (object : Node) : ParserOn σ (Option Node) := do
  let kind ← peekKind?
  if kind = some (.punctuator .dot) ∨ kind = some (.punctuator .leftBracket) then
    let access ← memberAccess g start object
    let result ← bounded access
    return some result
  else
    return none

/-- Extends an expression that starts at `start` by a call or a member access. -/
def callStep (g : NestedOn σ) (start : Position) (callee : Node) : ParserOn σ (Option Node) := do
  if ← check (.punctuator .leftParen) then
    let list ← arguments g
    let call ← finish .callExpression start [callee, list]
    let result ← bounded call
    return some result
  else
    memberStep g start callee

/-- A construction with `new`. What is constructed may have member accesses but no calls, and the
arguments may be missing. -/
def construction (g : NestedOn σ) : ParserOn σ Node := do
  let start ← here
  advance
  let calleeStart ← here
  let head ← if ← check (.keyword .newKw) then g.construction else primary g
  let callee ← chain (memberStep g calleeStart) head
  if ← check (.punctuator .leftParen) then
    let list ← arguments g
    finish (.newExpression true) start [callee, list]
  else
    finish (.newExpression false) start [callee]

/-- A construction or a primary expression with calls and member accesses. -/
def callChain (g : NestedOn σ) : ParserOn σ Node := do
  let start ← here
  let head ← if ← check (.keyword .newKw) then construction g else primary g
  chain (callStep g start) head

/-- A call chain with an update operator behind it, on the same line. -/
def updated (g : NestedOn σ) : ParserOn σ Node := do
  let start ← here
  let operand ← callChain g
  if ← newlineBefore then
    return operand
  else
    match (← peekKind?).bind UpdateOperator.ofKind? with
    | none => return operand
    | some operator =>
      requireAssignable operand
      advance
      finish (.updateExpression operator false) start [operand]

/-- An operand with the operators before it. -/
def unary (g : NestedOn σ) : ParserOn σ Node := do
  let start ← here
  match ← peekKind? with
  | none => unexpected "expression"
  | some kind =>
    match UpdateOperator.ofKind? kind with
    | some operator =>
      advance
      let operand ← g.unary
      requireAssignable operand
      finish (.updateExpression operator true) start [operand]
    | none =>
      match UnaryOperator.ofKind? kind with
      | some operator =>
        advance
        let operand ← g.unary
        finish (.unaryExpression operator) start [operand]
      | none => updated g

/-- The binary operator that is next, if it binds tighter than `loosest`. -/
def binaryOperator? (allowIn : Bool) (loosest : Nat) : ParserOn σ (Option BinaryOperator) := do
  match (← peekKind?).bind BinaryOperator.ofKind? with
  | none => return none
  | some operator =>
    if operator = .isIn ∧ allowIn = false then return none
    else if operator.precedence ≤ loosest then return none
    else return some operator

/-- Extends the left operand of a binary expression by an operator and its right operand. -/
def binaryStep (right : BinaryOperator → ParserOn σ Node) (allowIn : Bool) (loosest : Nat)
    (start : Position) (left : Node) : ParserOn σ (Option Node) := do
  match ← binaryOperator? allowIn loosest with
  | none => return none
  | some operator =>
    advance
    let right ← right operator
    let both ← finish (.binaryExpression operator) start [left, right]
    let result ← bounded both
    return some result

/-- Operands with the binary operators between them that bind tighter than `loosest`. The right
operand of an operator holds only tighter ones. There are ten precedences, so where `levels` of
them are left and `loosest` is `10 - levels`, no operator remains at the last level. -/
def binary (g : NestedOn σ) (allowIn : Bool) : (levels loosest : Nat) → ParserOn σ Node
  | 0, _ => unary g
  | levels + 1, loosest => do
    let start ← here
    let head ← unary g
    chain (binaryStep (fun operator => binary g allowIn levels operator.precedence)
      allowIn loosest start) head

/-- The number of precedences of binary operators. -/
def precedences : Nat := 10

/-- A choice between two expressions, or an expression without one. -/
def conditional (g : NestedOn σ) (allowIn : Bool) : ParserOn σ Node := do
  let start ← here
  let test ← binary g allowIn precedences 0
  if ← accept (.punctuator .hook) then
    let consequent ← g.assignment true
    expect (.punctuator .colon) "':'"
    let alternate ← g.assignment allowIn
    finish .conditionalExpression start [test, consequent, alternate]
  else
    return test

/-- An assignment, whose right side may be an assignment again, or an expression without one. -/
def assignment (g : NestedOn σ) (allowIn : Bool) : ParserOn σ Node := do
  let start ← here
  let target ← conditional g allowIn
  match (← peekKind?).bind AssignOperator.ofKind? with
  | none => return target
  | some operator =>
    requireAssignable target
    advance
    let value ← g.assignment allowIn
    finish (.assignmentExpression operator) start [target, value]

end Grammar

end ScriptLint
