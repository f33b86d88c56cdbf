import ScriptLint.Tree.Walk

/-!
# Trees with named parts

A node as the grammar speaks of it has its parts in fields of their own: a condition, a body, a
list of cases, a part that may be missing. `NodeKind` has a constructor for each type of node, with
one field for each of its parts and one for each name, label, operator or value. A tree of such
nodes is walked by way of `NodeKind.children`, which puts the parts of each kind into one list.

A `Node` has the same content in a uniform layout. `SyntaxTree.toNode` lays a tree out, and
`Node.typed?` reads the tree back if the number of children of each node goes with its form.
-/

namespace ScriptLint

/-- What a node is, with parts of type `α`. -/
inductive NodeKind (α : Type) where
  | program (body : List α)
  | emptyStatement
  | compoundStatement (body : List α)
  | expressionStatement (expression : α)
  | emptyExpression
  | ifStatement (test consequent : α) (alternate : Option α)
  | breakStatement (label : Option String)
  | continueStatement (label : Option String)
  | withStatement (object body : α)
  | switchStatement (discriminant : α) (cases : List α)
  /-- Without a test it is the default case. -/
  | switchCase (test : Option α) (consequent : List α)
  | returnStatement (argument : Option α)
  | throwStatement (argument : α)
  | tryStatement (block : α) (handler finalizer : Option α)
  | catchClause (parameter : String) (body : α)
  | whileStatement (test body : α)
  | doWhileStatement (body test : α)
  | forStatement (init test update body : α)
  | forInStatement (left right body : α)
  | debuggerStatement
  | functionDeclaration (name : String) (parameters body : α)
  | functionExpression (name : Option String) (parameters body : α)
  | formalParameter (name : String)
  | formalParameterList (parameters : List α)
  | functionArgumentList (arguments : List α)
  | variableDefinition (name : String) (init : Option α)
  | variableDefinitionList (declaration : DeclarationKind) (definitions : List α)
  | thisExpression
  | unaryExpression (operator : UnaryOperator) (argument : α)
  | binaryExpression (operator : BinaryOperator) (left right : α)
  | assignmentExpression (operator : AssignOperator) (left right : α)
  | updateExpression (operator : UpdateOperator) (leading : Bool) (argument : α)
  | conditionalExpression (test consequent alternate : α)
  | sequenceExpression (expressions : List α)
  | newExpression (callee : α) (arguments : Option α)
  | callExpression (callee arguments : α)
  | memberExpression (object member : α) (computed : Bool)
  | arrayExpression (elements : List α)
  | objectExpression (properties : List α)
  | property (key : String) (value : α)
  | identifier (name : String)
  | literal (value : LiteralValue)

namespace NodeKind

variable {α : Type}

/-- The parts of a kind in the order of its fields. -/
def children : NodeKind α → List α
  | .program body | .compoundStatement body => body
  | .expressionStatement expression => [expression]
  | .ifStatement test consequent alternate => [test, consequent] ++ alternate.toList
  | .withStatement object body => [object, body]
  | .switchStatement discriminant cases => discriminant :: cases
  | .switchCase test consequent => test.toList ++ consequent
  | .returnStatement argument => argument.toList
  | .throwStatement argument => [argument]
  | .tryStatement block handler finalizer => block :: handler.toList ++ finalizer.toList
  | .catchClause _ body => [body]
  | .whileStatement test body => [test, body]
  | .doWhileStatement body test => [body, test]
  | .forStatement init test update body => [init, test, update, body]
  | .forInStatement left right body => [left, right, body]
  | .functionDeclaration _ parameters body | .functionExpression _ parameters body =>
    [parameters, body]
  | .formalParameterList parameters => parameters
  | .functionArgumentList arguments => arguments
  | .variableDefinition _ init => init.toList
  | .variableDefinitionList _ definitions => definitions
  | .unaryExpression _ argument | .updateExpression _ _ argument => [argument]
  | .binaryExpression _ left right | .assignmentExpression _ left right => [left, right]
  | .conditionalExpression test consequent alternate => [test, consequent, alternate]
  | .sequenceExpression expressions => expressions
  | .newExpression callee arguments => callee :: arguments.toList
  | .callExpression callee arguments => [callee, arguments]
  | .memberExpression object member _ => [object, member]
  | .arrayExpression elements => elements
  | .objectExpression properties => properties
  | .property _ value => [value]
  | .emptyStatement | .emptyExpression | .breakStatement _ | .continueStatement _
  | .debuggerStatement | .formalParameter _ | .thisExpression | .identifier _ | .literal _ => []

/-- What a kind is apart from its parts. -/
def form : NodeKind α → Form
  | .program _ => .program
  | .emptyStatement => .emptyStatement
  | .compoundStatement _ => .compoundStatement
  | .expressionStatement _ => .expressionStatement
  | .emptyExpression => .emptyExpression
  | .ifStatement _ _ alternate => .ifStatement alternate.isSome
  | .breakStatement label => .breakStatement label
  | .continueStatement label => .continueStatement label
  | .withStatement _ _ => .withStatement
  | .switchStatement _ _ => .switchStatement
  | .switchCase test _ => .switchCase test.isSome
  | .returnStatement argument => .returnStatement argument.isSome
  | .throwStatement _ => .throwStatement
  | .tryStatement _ handler finalizer => .tryStatement handler.isSome finalizer.isSome
  | .catchClause parameter _ => .catchClause parameter
  | .whileStatement _ _ => .whileStatement
  | .doWhileStatement _ _ => .doWhileStatement
  | .forStatement _ _ _ _ => .forStatement
  | .forInStatement _ _ _ => .forInStatement
  | .debuggerStatement => .debuggerStatement
  | .functionDeclaration name _ _ => .functionDeclaration name
  | .functionExpression name _ _ => .functionExpression name
  | .formalParameter name => .formalParameter name
  | .formalParameterList _ => .formalParameterList
  | .functionArgumentList _ => .functionArgumentList
  | .variableDefinition name init => .variableDefinition name init.isSome
  | .variableDefinitionList declaration _ => .variableDefinitionList declaration
  | .thisExpression => .thisExpression
  | .unaryExpression operator _ => .unaryExpression operator
  | .binaryExpression operator _ _ => .binaryExpression operator
  | .assignmentExpression operator _ _ => .assignmentExpression operator
  | .updateExpression operator leading _ => .updateExpression operator leading
  | .conditionalExpression _ _ _ => .conditionalExpression
  | .sequenceExpression _ => .sequenceExpression
  | .newExpression _ arguments => .newExpression arguments.isSome
  | .callExpression _ _ => .callExpression
  | .memberExpression _ _ computed => .memberExpression computed
  | .arrayExpression _ => .arrayExpression
  | .objectExpression _ => .objectExpression
  | .property key _ => .property key
  | .identifier name => .identifier name
  | .literal value => .literal value

/-- The type of the nodes of a kind. -/
def type (kind : NodeKind α) : NodeType := kind.form.type

/-- A kind without parts. -/
def ofNone (kind : NodeKind α) : List α → Option (NodeKind α)
  | [] => some kind
  | _ => none

/-- A kind with one part. -/
def ofOne (make : α → NodeKind α) : List α → Option (NodeKind α)
  | [a] => some (make a)
  | _ => none

/-- A kind with two parts. -/
def ofTwo (make : α → α → NodeKind α) : List α → Option (NodeKind α)
  | [a, b] => some (make a b)
  | _ => none

/-- A kind with three parts. -/
def ofThree (make : α → α → α → NodeKind α) : List α → Option (NodeKind α)
  | [a, b, c] => some (make a b c)
  | _ => none

/-- A kind with four parts. -/
def ofFour (make : α → α → α → α → NodeKind α) : List α → Option (NodeKind α)
  | [a, b, c, d] => some (make a b c d)
  | _ => none

/-- A kind with a part and any number of others. -/
def ofFirst (make : α → List α → NodeKind α) : List α → Option (NodeKind α)
  | a :: others => some (make a others)
  | [] => none

/-- The kind that a form and a list of parts make. -/
def ofParts? : Form → List α → Option (NodeKind α)
  | .program => some ∘ .program
  | .emptyStatement => ofNone .emptyStatement
  | .compoundStatement => some ∘ .compoundStatement
  | .expressionStatement => ofOne .expressionStatement
  | .emptyExpression => ofNone .emptyExpression
  | .ifStatement false => ofTwo fun test consequent => .ifStatement test consequent none
  | .ifStatement true =>
    ofThree fun test consequent alternate => .ifStatement test consequent (some alternate)
  | .breakStatement label => ofNone (.breakStatement label)
  | .continueStatement label => ofNone (.continueStatement label)
  | .withStatement => ofTwo .withStatement
  | .switchStatement => ofFirst .switchStatement
  | .switchCase false => some ∘ .switchCase none
  | .switchCase true => ofFirst fun test consequent => .switchCase (some test) consequent
  | .returnStatement false => ofNone (.returnStatement none)
  | .returnStatement true => ofOne fun argument => .returnStatement (some argument)
  | .throwStatement => ofOne .throwStatement
  | .tryStatement false false => ofOne fun block => .tryStatement block none none
  | .tryStatement true false =>
    ofTwo fun block handler => .tryStatement block (some handler) none
  | .tryStatement false true =>
    ofTwo fun block finalizer => .tryStatement block none (some finalizer)
  | .tryStatement true true =>
    ofThree fun block handler finalizer => .tryStatement block (some handler) (some finalizer)
  | .catchClause parameter => ofOne (.catchClause parameter)
  | .whileStatement => ofTwo .whileStatement
  | .doWhileStatement => ofTwo .doWhileStatement
  | .forStatement => ofFour .forStatement
  | .forInStatement => ofThree .forInStatement
  | .debuggerStatement => ofNone .debuggerStatement
  | .functionDeclaration name => ofTwo (.functionDeclaration name)
  | .functionExpression name => ofTwo (.functionExpression name)
  | .formalParameter name => ofNone (.formalParameter name)
  | .formalParameterList => some ∘ .formalParameterList
  | .functionArgumentList => some ∘ .functionArgumentList
  | .variableDefinition name false => ofNone (.variableDefinition name none)
  | .variableDefinition name true => ofOne fun init => .variableDefinition name (some init)
  | .variableDefinitionList declaration => some ∘ .variableDefinitionList declaration
  | .thisExpression => ofNone .thisExpression
  | .unaryExpression operator => ofOne (.unaryExpression operator)
  | .binaryExpression operator => ofTwo (.binaryExpression operator)
  | .assignmentExpression operator => ofTwo (.assignmentExpression operator)
  | .updateExpression operator leading => ofOne (.updateExpression operator leading)
  | .conditionalExpression => ofThree .conditionalExpression
  | .sequenceExpression => some ∘ .sequenceExpression
  | .newExpression false => ofOne fun callee => .newExpression callee none
  | .newExpression true => ofTwo fun callee arguments => .newExpression callee (some arguments)
  | .callExpression => ofTwo .callExpression
  | .memberExpression computed =>
    ofTwo fun object member => .memberExpression object member computed
  | .arrayExpression => some ∘ .arrayExpression
  | .objectExpression => some ∘ .objectExpression
  | .property key => ofOne (.property key)
  | .identifier name => ofNone (.identifier name)
  | .literal value => ofNone (.literal value)

end NodeKind

/-- A tree whose nodes have named parts. -/
structure SyntaxTree where
  span : Span
  /-- The number of levels of the tree below and with its root. -/
  height : Nat
  kind : NodeKind SyntaxTree

namespace SyntaxTree

/-- A tree over the given parts; its height is one more than that of the tallest of them. -/
def build (span : Span) (kind : NodeKind SyntaxTree) : SyntaxTree :=
  ⟨span, 1 + kind.children.foldr (fun child tallest => max child.height tallest) 0, kind⟩

/-- A part is smaller than the kind that it is a part of. -/
theorem sizeOf_lt_of_mem_children {child : SyntaxTree} {kind : NodeKind SyntaxTree}
    (h : child ∈ kind.children) : sizeOf child < sizeOf kind := by
  cases kind <;>
    simp only [NodeKind.children, List.mem_append, List.mem_cons, List.not_mem_nil, or_false,
      Option.mem_toList] at h <;>
    simp <;>
    grind [→ List.sizeOf_lt_of_mem, Option.some.sizeOf_spec]

theorem sizeOf_lt {span : Span} {height : Nat} {kind : NodeKind SyntaxTree} {child : SyntaxTree}
    (h : child ∈ kind.children) : sizeOf child < sizeOf (mk span height kind) := by
  have := sizeOf_lt_of_mem_children h
  rw [SyntaxTree.mk.sizeOf_spec]
  omega

/-- A tree as a walk meets it. -/
structure Visit where
  tree : SyntaxTree
  context : Context

/-- The visits of a tree whose root stands in `context`. -/
def walkIn (context : Context) : SyntaxTree → List Visit
  | ⟨span, height, kind⟩ =>
    ⟨⟨span, height, kind⟩, context⟩ ::
      kind.children.attach.flatMap fun child => child.1.walkIn (context.enter kind.type)
termination_by tree => tree
decreasing_by exact sizeOf_lt child.2

/-- The visits of a tree. -/
def walk (root : SyntaxTree) : List Visit := root.walkIn .root

/-- The tree that a path of child numbers leads to. -/
def descend? (root : SyntaxTree) : (path : List Nat) → Option SyntaxTree
  | [] => some root
  | i :: path => root.kind.children[i]? >>= fun child => child.descend? path

/-- The node of a tree in the uniform layout. -/
def toNode : SyntaxTree → Node
  | ⟨span, height, kind⟩ =>
    ⟨kind.form, span, height, kind.children.attach.map fun child => child.1.toNode⟩
termination_by tree => tree
decreasing_by exact sizeOf_lt child.2

end SyntaxTree

mutual
/-- The tree that a node is the layout of. -/
def Node.typed? : Node → Option SyntaxTree
  | ⟨form, span, height, children⟩ => do
    let parts ← typedAll? children
    let kind ← NodeKind.ofParts? form parts
    return ⟨span, height, kind⟩
/-- The trees that several nodes are the layouts of. -/
def typedAll? : List Node → Option (List SyntaxTree)
  | [] => some []
  | n :: ns => do
    let tree ← n.typed?
    let trees ← typedAll? ns
    return tree :: trees
end

end ScriptLint
