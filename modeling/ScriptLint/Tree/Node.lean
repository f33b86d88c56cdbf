import ScriptLint.Tree.NodeType
import ScriptLint.Tree.Operator

/-!
# Syntax trees

A node is its form, its span, its height and its children. The form says what the node is and
holds what is not a node itself: names, labels, operators, literal values, and which of its
optional parts are present. The children are the parts, in the order of the source. All
traversals treat nodes alike, so they are stated once and not once for every form; which children
a form goes with is the grammar's business. The kinds of nodes with a named field for each part are
in `ScriptLint.Tree.Typed`.

A name that is declared or that follows a dot belongs to a form. Only a mention of a name is a
node of its own.
-/

namespace ScriptLint

/-- The value of a literal. -/
inductive LiteralValue where
  | number (value : Binary64)
  | string (value : String)
  | boolean (value : Bool)
  | null
  | undefined
deriving DecidableEq, Repr

/-- The keyword that opens a list of variable definitions. -/
inductive DeclarationKind where
  | varKind
  | letKind
  | constKind
deriving DecidableEq, Repr

namespace DeclarationKind

/-- The declaration that a keyword opens. -/
def ofKind? : TokenKind → Option DeclarationKind
  | .keyword .varKw => some .varKind
  | .keyword .letKw => some .letKind
  | .keyword .constKw => some .constKind
  | _ => none

/-- How the keyword is spelled. -/
def spelling : DeclarationKind → String
  | .varKind => "var"
  | .letKind => "let"
  | .constKind => "const"

end DeclarationKind

/-- What a node is, apart from its children. -/
inductive Form where
  | program
  | emptyStatement
  | compoundStatement
  | expressionStatement
  | emptyExpression
  | ifStatement (hasElse : Bool)
  | breakStatement (label : Option String)
  | continueStatement (label : Option String)
  | withStatement
  | switchStatement
  | switchCase (hasTest : Bool)
  | returnStatement (hasArgument : Bool)
  | throwStatement
  | tryStatement (hasHandler hasFinalizer : Bool)
  | catchClause (parameter : String)
  | whileStatement
  | doWhileStatement
  | forStatement
  | forInStatement
  | debuggerStatement
  | functionDeclaration (name : String)
  | functionExpression (name : Option String)
  | formalParameter (name : String)
  | formalParameterList
  | functionArgumentList
  | variableDefinition (name : String) (hasInit : Bool)
  | variableDefinitionList (declaration : DeclarationKind)
  | thisExpression
  | unaryExpression (operator : UnaryOperator)
  | binaryExpression (operator : BinaryOperator)
  | assignmentExpression (operator : AssignOperator)
  | updateExpression (operator : UpdateOperator) (leading : Bool)
  | conditionalExpression
  | sequenceExpression
  | newExpression (hasArguments : Bool)
  | callExpression
  | memberExpression (computed : Bool)
  | arrayExpression
  | objectExpression
  | property (key : String)
  | identifier (name : String)
  | literal (value : LiteralValue)
deriving DecidableEq, Repr

namespace Form

/-- The type of the nodes of a form. -/
def type : Form → NodeType
  | .program => .program
  | .emptyStatement => .emptyStatement
  | .compoundStatement => .compoundStatement
  | .expressionStatement => .expressionStatement
  | .emptyExpression => .emptyExpression
  | .ifStatement _ => .ifStatement
  | .breakStatement _ => .breakStatement
  | .continueStatement _ => .continueStatement
  | .withStatement => .withStatement
  | .switchStatement => .switchStatement
  | .switchCase _ => .switchCase
  | .returnStatement _ => .returnStatement
  | .throwStatement => .throwStatement
  | .tryStatement _ _ => .tryStatement
  | .catchClause _ => .catchClause
  | .whileStatement => .whileStatement
  | .doWhileStatement => .doWhileStatement
  | .forStatement => .forStatement
  | .forInStatement => .forInStatement
  | .debuggerStatement => .debuggerStatement
  | .functionDeclaration _ => .functionDeclaration
  | .functionExpression _ => .functionExpression
  | .formalParameter _ => .formalParameter
  | .formalParameterList => .formalParameterList
  | .functionArgumentList => .functionArgumentList
  | .variableDefinition _ _ => .variableDefinition
  | .variableDefinitionList _ => .variableDefinitionList
  | .thisExpression => .thisExpression
  | .unaryExpression _ => .unaryExpression
  | .binaryExpression _ => .binaryExpression
  | .assignmentExpression _ => .assignmentExpression
  | .updateExpression _ _ => .updateExpression
  | .conditionalExpression => .conditionalExpression
  | .sequenceExpression => .sequenceExpression
  | .newExpression _ => .newExpression
  | .callExpression => .callExpression
  | .memberExpression _ => .memberExpression
  | .arrayExpression => .arrayExpression
  | .objectExpression => .objectExpression
  | .property _ => .property
  | .identifier _ => .identifier
  | .literal _ => .literal

/-- The name that a form declares or mentions. -/
def name? : Form → Option String
  | .identifier name
  | .variableDefinition name _
  | .functionDeclaration name
  | .formalParameter name
  | .catchClause name => some name
  | .functionExpression name => name
  | _ => none

/-- Whether something can be stored into what the form denotes. -/
def isAssignable : Form → Bool
  | .identifier _ | .memberExpression _ => true
  | _ => false

end Form

/-- A node of a syntax tree. -/
structure Node where
  form : Form
  span : Span
  /-- The number of levels of the tree below and with the node. -/
  height : Nat
  children : List Node
deriving Repr

namespace Node

/-- A node over the given children; its height is one more than that of the tallest of them. -/
def build (form : Form) (span : Span) (children : List Node) : Node :=
  ⟨form, span, 1 + children.foldr (fun child tallest => max child.height tallest) 0, children⟩

/-- The type of a node. -/
def type (n : Node) : NodeType := n.form.type

/-- The name that a node declares or mentions. -/
def name? (n : Node) : Option String := n.form.name?

/-- The place where a node starts. -/
def start (n : Node) : Position := n.span.start

/-- Whether something can be stored into what the node denotes. -/
def isAssignable (n : Node) : Bool := n.form.isAssignable

/-- The number of members of a list of parameters or arguments. -/
def listSize? (form : Form) (list : Node) : Option Nat :=
  if list.form = form then some list.children.length else none

/-- The number of parameters that a function declares. -/
def parameterCount? (n : Node) : Option Nat :=
  match n.form, n.children with
  | .functionDeclaration _, parameters :: _
  | .functionExpression _, parameters :: _ => parameters.listSize? .formalParameterList
  | _, _ => none

/-- The number of arguments that a call or a construction passes. -/
def argumentCount? (n : Node) : Option Nat :=
  match n.form, n.children with
  | .callExpression, _ :: list :: _
  | .newExpression true, _ :: list :: _ => list.listSize? .functionArgumentList
  | .newExpression false, _ => some 0
  | _, _ => none

mutual
/-- Whether two trees are equal, decided together with `decEqList`. -/
def decEq : (m n : Node) → Decidable (m = n)
  | ⟨form, span, height, children⟩, ⟨form', span', height', children'⟩ =>
    if h : form = form' ∧ span = span' ∧ height = height' then
      match decEqList children children' with
      | isTrue hc => isTrue (by rw [h.1, h.2.1, h.2.2, hc])
      | isFalse hc => isFalse fun heq => hc (Node.mk.inj heq).2.2.2
    else isFalse fun heq =>
      h ⟨(Node.mk.inj heq).1, (Node.mk.inj heq).2.1, (Node.mk.inj heq).2.2.1⟩
/-- Whether two lists of trees are equal. -/
def decEqList : (ms ns : List Node) → Decidable (ms = ns)
  | [], [] => isTrue rfl
  | [], _ :: _ => isFalse nofun
  | _ :: _, [] => isFalse nofun
  | m :: ms, n :: ns =>
    match decEq m n, decEqList ms ns with
    | isTrue h, isTrue hs => isTrue (by rw [h, hs])
    | isFalse h, _ => isFalse fun heq => h (List.cons.inj heq).1
    | _, isFalse hs => isFalse fun heq => hs (List.cons.inj heq).2
end

instance : DecidableEq Node := decEq

end Node

end ScriptLint
