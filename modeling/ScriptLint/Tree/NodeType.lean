/-!
# Types of nodes

The names of the forms that a node of a syntax tree can have. Rules choose the nodes they look at
by type.
-/

namespace ScriptLint

/-- The type of a node. -/
inductive NodeType where
  | program | emptyStatement | compoundStatement | expressionStatement | emptyExpression
  | ifStatement | breakStatement | continueStatement | withStatement | switchStatement
  | switchCase | returnStatement | throwStatement | tryStatement | catchClause | whileStatement
  | doWhileStatement | forStatement | forInStatement | debuggerStatement | functionDeclaration
  | functionExpression | formalParameter | formalParameterList | functionArgumentList
  | variableDefinition | variableDefinitionList | thisExpression | unaryExpression
  | binaryExpression | assignmentExpression | updateExpression | conditionalExpression
  | sequenceExpression | newExpression | callExpression | memberExpression | arrayExpression
  | objectExpression | property | identifier | literal
deriving DecidableEq, Repr

namespace NodeType

/-- All types. -/
def all : List NodeType :=
  [.program, .emptyStatement, .compoundStatement, .expressionStatement, .emptyExpression,
   .ifStatement, .breakStatement, .continueStatement, .withStatement, .switchStatement,
   .switchCase, .returnStatement, .throwStatement, .tryStatement, .catchClause, .whileStatement,
   .doWhileStatement, .forStatement, .forInStatement, .debuggerStatement, .functionDeclaration,
   .functionExpression, .formalParameter, .formalParameterList, .functionArgumentList,
   .variableDefinition, .variableDefinitionList, .thisExpression, .unaryExpression,
   .binaryExpression, .assignmentExpression, .updateExpression, .conditionalExpression,
   .sequenceExpression, .newExpression, .callExpression, .memberExpression, .arrayExpression,
   .objectExpression, .property, .identifier, .literal]

/-- What a type is called in rule lists. -/
def label : NodeType → String
  | .program => "Program"
  | .emptyStatement => "EmptyStatement"
  | .compoundStatement => "CompoundStatement"
  | .expressionStatement => "ExpressionStatement"
  | .emptyExpression => "EmptyExpression"
  | .ifStatement => "IfStatement"
  | .breakStatement => "BreakStatement"
  | .continueStatement => "ContinueStatement"
  | .withStatement => "WithStatement"
  | .switchStatement => "SwitchStatement"
  | .switchCase => "SwitchCase"
  | .returnStatement => "ReturnStatement"
  | .throwStatement => "ThrowStatement"
  | .tryStatement => "TryStatement"
  | .catchClause => "CatchClause"
  | .whileStatement => "WhileStatement"
  | .doWhileStatement => "DoWhileStatement"
  | .forStatement => "ForStatement"
  | .forInStatement => "ForInStatement"
  | .debuggerStatement => "DebuggerStatement"
  | .functionDeclaration => "FunctionDeclaration"
  | .functionExpression => "FunctionExpression"
  | .formalParameter => "FormalParameter"
  | .formalParameterList => "FormalParameterList"
  | .functionArgumentList => "FunctionArgumentList"
  | .variableDefinition => "VariableDefinition"
  | .variableDefinitionList => "VariableDefinitionList"
  | .thisExpression => "ThisExpression"
  | .unaryExpression => "UnaryExpression"
  | .binaryExpression => "BinaryExpression"
  | .assignmentExpression => "AssignmentExpression"
  | .updateExpression => "UpdateExpression"
  | .conditionalExpression => "ConditionalExpression"
  | .sequenceExpression => "SequenceExpression"
  | .newExpression => "NewExpression"
  | .callExpression => "CallExpression"
  | .memberExpression => "MemberExpression"
  | .arrayExpression => "ArrayExpression"
  | .objectExpression => "ObjectExpression"
  | .property => "Property"
  | .identifier => "Identifier"
  | .literal => "Literal"

/-- The type with the given name. -/
def ofLabel? (label : String) : Option NodeType :=
  all.find? fun t => t.label == label

/-- Whether nodes of the type have a function body of their own. -/
def isFunction : NodeType → Bool
  | .functionDeclaration | .functionExpression => true
  | _ => false

end NodeType

end ScriptLint
