import ScriptLint.Grammar.Program

/-!
# The rules of the grammar

What a script may look like, said without a parser. `Phrase place form items` says how a node of a
form is written where it stands at `place`: its words and its parts, in the order of the script.
There is a clause for every form; an expression that is left out has no text of its own and is a
`hole` of the rule around it.

Expressions have ranks. Where an expression stands, its `Slot` says which rank it must have to
stand there without parentheses. The slots of its parts follow from its own.
-/

namespace ScriptLint

/-- What a rule asks of one token. -/
inductive Word where
  | mark (mark : Punctuator)
  | keyword (keyword : Keyword)
  /-- An identifier. -/
  | name (name : String)
  /-- A token that stands for a literal. -/
  | literal (value : LiteralValue)
  /-- A token that stands for a key of an object literal, and not for its end. -/
  | key (key : String)
  /-- A token that stands for a name behind a dot. -/
  | member (name : String)
  | declaration (declaration : DeclarationKind)
  | binary (operator : BinaryOperator)
  | assign (operator : AssignOperator)
  | unary (operator : UnaryOperator)
  | update (operator : UpdateOperator)
deriving DecidableEq, Repr

/-- Whether a token is what a rule asks for. -/
def Word.Matches : Word → Token → Prop
  | .mark m, t => t.kind = .punctuator m
  | .keyword k, t => t.kind = .keyword k
  | .name x, t => t.identifier? = some x
  | .literal value, t => t.literal? = some value
  | .key x, t => t.propertyKey? = some x ∧ t.kind ≠ .punctuator .rightCurly
  | .member x, t => t.propertyName? = some x
  | .declaration d, t => DeclarationKind.ofKind? t.kind = some d
  | .binary operator, t => BinaryOperator.ofKind? t.kind = some operator
  | .assign operator, t => AssignOperator.ofKind? t.kind = some operator
  | .unary operator, t => UnaryOperator.ofKind? t.kind = some operator
  | .update operator, t => UpdateOperator.ofKind? t.kind = some operator

/-- How tightly an expression holds together. A sequence has rank zero, then come assignments,
choices and the ten precedences of binary operators, operators before their operand, operators
behind it, a construction without arguments, a call, and everything else. -/
def Form.rank : Form → Nat
  | .sequenceExpression => 0
  | .assignmentExpression _ => 1
  | .conditionalExpression => 2
  | .binaryExpression operator => 2 + operator.precedence
  | .unaryExpression _ => 13
  | .updateExpression _ true => 13
  | .updateExpression _ false => 14
  | .newExpression false => 15
  | .callExpression => 16
  | _ => 17

/-- Whether the text of a form starts like a statement that is no expression. -/
def Form.startsLikeStatement : Form → Bool
  | .objectExpression | .functionExpression _ => true
  | _ => false

/-- Whether a node of the form is one more link of a chain, whose height is bounded. -/
def Form.isLink : Form → Bool
  | .binaryExpression _ | .callExpression | .memberExpression _ => true
  | _ => false

/-- Where an expression stands. -/
structure Slot where
  /-- The least rank that needs no parentheses here. -/
  rank : Nat
  /-- Whether `in` is an operator here. -/
  allowIn : Bool
  /-- Whether a statement starts here. -/
  opening : Bool
  /-- Whether something is stored into the expression. -/
  target : Bool
  /-- Whether reading the expression takes a nesting level. -/
  nests : Bool
deriving DecidableEq, Repr

namespace Slot

/-- The slot of an expression that may have commas. -/
def whole (allowIn opening : Bool) : Slot := ⟨0, allowIn, opening, false, true⟩

/-- The slot of an expression between brackets. -/
def top : Slot := whole true false

/-- The slot of an expression without commas. -/
def item (allowIn opening : Bool) : Slot := ⟨1, allowIn, opening, false, true⟩

/-- A slot whose expression is read on the nesting level around it, for its value. -/
def plain (rank : Nat) (allowIn opening : Bool) : Slot := ⟨rank, allowIn, opening, false, false⟩

/-- The slot behind an operator that has one operand. -/
def operand (target : Bool) : Slot := ⟨13, true, false, target, true⟩

/-- The slot of what is constructed. No call belongs to it. -/
def constructed : Slot := plain 17 true false

/-- The slot of the first part of an expression, which starts where the expression does. -/
def first (s : Slot) (rank : Nat) : Slot := plain rank s.allowIn s.opening

/-- The slot of a later part of an expression. -/
def later (s : Slot) (rank : Nat) : Slot := plain rank s.allowIn false

/-- The slot of a first part that something is stored into. -/
def stored (s : Slot) : Slot := ⟨15, s.allowIn, s.opening, true, false⟩

/-- The slot of what a loop over the members of an object stores into. -/
def loopTarget : Slot := ⟨15, false, false, true, true⟩

/-- The slot of a first part whose member is accessed. Under `new` no call belongs to it either. -/
def object (s : Slot) : Slot := s.first (max 16 s.rank)

/-- Whether a form fits the purpose of the slot, in parentheses or not. -/
def serves (s : Slot) (form : Form) : Bool :=
  !s.target || form.isAssignable

/-- Whether an expression can stand in the slot without parentheses. -/
def admits (s : Slot) (form : Form) : Bool :=
  s.rank ≤ form.rank && (s.allowIn || form != .binaryExpression .isIn) &&
    !(s.opening && form.startsLikeStatement) && s.serves form

end Slot

/-- Where a node stands. -/
inductive Place where
  | program
  /-- A statement or a function declaration. -/
  | element
  /-- A statement. One that is `closed` stands before an `else` that is not its own. -/
  | statement (closed : Bool)
  /-- Statements in braces. -/
  | block
  /-- A declaration in the head of a loop. -/
  | declarations
  | definition (allowIn : Bool)
  | parameters
  | parameter
  | arguments
  | switchCase
  | handler
  | property
  /-- A name behind a dot. -/
  | key
  /-- A construction without arguments right behind `new`. -/
  | construction
  | expression (slot : Slot)
deriving DecidableEq, Repr

namespace Place

/-- Whether a form can stand at a place without parentheses, as far as ranks go. -/
def admits : Place → Form → Bool
  | .expression slot, form => slot.admits form
  | _, _ => true

/-- The place of an expression between brackets. -/
def top : Place := .expression .top

/-- The place of an expression between commas. -/
def item (allowIn : Bool) : Place := .expression (.item allowIn false)

end Place

/-- A piece of a rule. -/
inductive Item where
  | word (word : Word)
  | part (place : Place)
  /-- An expression that is left out, and the mark behind it. -/
  | hole (mark : Punctuator)
  /-- A `;`, or nothing where it is implied. -/
  | terminator
  /-- A `;`, or nothing where none follows. -/
  | option
  /-- No line ends here. -/
  | sameLine
deriving DecidableEq, Repr

namespace Item

/-- A punctuator. -/
def mark (mark : Punctuator) : Item := .word (.mark mark)

/-- A reserved word. -/
def keyword (keyword : Keyword) : Item := .word (.keyword keyword)

/-- Parts at a place, one after the other. -/
def parts (place : Place) (count : Nat) : List Item := .replicate count (.part place)

/-- Parts at a place, each behind a comma. -/
def followers (place : Place) : (count : Nat) → List Item
  | 0 => []
  | count + 1 => mark .comma :: .part place :: followers place count

/-- Parts at a place with commas between them. -/
def separated (place : Place) : (count : Nat) → List Item
  | 0 => []
  | count + 1 => .part place :: followers place count

/-- An expression in parentheses that belong to the rule. -/
def guard : List Item := [mark .leftParen, .part .top, mark .rightParen]

end Item

/-- A clause in the head of a loop with the mark behind it. The clause may be left out. -/
inductive Clause (mark : Punctuator) (places : List Place) : List Item → Prop where
  | hole : Clause mark places [.hole mark]
  | part {place : Place} : place ∈ places → Clause mark places [.part place, .mark mark]

/-- The elements of an array. A hole is a comma without an element, and the last element may have
a comma behind it. -/
inductive Elements : List Item → Prop where
  | nil : Elements []
  | hole {items : List Item} : Elements items → Elements (.hole .comma :: items)
  | last : Elements [.part (.item true)]
  | value {items : List Item} :
      Elements items → Elements (.part (.item true) :: .mark .comma :: items)

/-- A comma that may stand behind the last of `count` members. -/
inductive Trailing : Nat → List Item → Prop where
  | nothing {count : Nat} : Trailing count []
  | comma {count : Nat} : Trailing (count + 1) [.mark .comma]

/-- What follows `break` or `continue`: a label, if there is one, stands on the same line. -/
def Item.jump : Option String → List Item
  | none => [.terminator]
  | some label => [.sameLine, .word (.name label), .terminator]

/-- A construction. Without arguments it may construct another such construction. -/
inductive Construction : Bool → List Item → Prop where
  | arguments :
      Construction true [.keyword .newKw, .part (.expression .constructed), .part .arguments]
  | bare : Construction false [.keyword .newKw, .part (.expression .constructed)]
  | nested : Construction false [.keyword .newKw, .part .construction]

/-- How a node of a form is written at a place. -/
inductive Phrase : Place → Form → List Item → Prop where
  | program (count : Nat) : Phrase .program .program (Item.parts .element count)
  | emptyStatement (closed : Bool) : Phrase (.statement closed) .emptyStatement [.mark .semicolon]
  | compoundStatement (count : Nat) :
      Phrase .block .compoundStatement
        (.mark .leftCurly :: (Item.parts .element count ++ [.mark .rightCurly]))
  | expressionStatement (closed : Bool) :
      Phrase (.statement closed) .expressionStatement
        [.part (.expression (.whole true true)), .terminator]
  | variableStatement (closed : Bool) (declaration : DeclarationKind) (count : Nat) :
      Phrase (.statement closed) (.variableDefinitionList declaration)
        (.word (.declaration declaration) ::
          (Item.separated (.definition true) (count + 1) ++ [.terminator]))
  | ifStatement :
      Phrase (.statement false) (.ifStatement false)
        (.keyword .ifKw :: (Item.guard ++ [.part (.statement false)]))
  | ifElseStatement (closed : Bool) :
      Phrase (.statement closed) (.ifStatement true)
        (.keyword .ifKw :: (Item.guard ++
          [.part (.statement true), .keyword .elseKw, .part (.statement closed)]))
  | whileStatement (closed : Bool) :
      Phrase (.statement closed) .whileStatement
        (.keyword .whileKw :: (Item.guard ++ [.part (.statement closed)]))
  | withStatement (closed : Bool) :
      Phrase (.statement closed) .withStatement
        (.keyword .withKw :: (Item.guard ++ [.part (.statement closed)]))
  | doWhileStatement (closed : Bool) :
      Phrase (.statement closed) .doWhileStatement
        (.keyword .doKw :: .part (.statement false) :: .keyword .whileKw ::
          (Item.guard ++ [.option]))
  | forStatement (closed : Bool) {init test update : List Item} :
      Clause .semicolon [.declarations, .expression (.whole false false)] init →
      Clause .semicolon [.top] test → Clause .rightParen [.top] update →
      Phrase (.statement closed) .forStatement
        (.keyword .forKw :: .mark .leftParen ::
          (init ++ (test ++ (update ++ [.part (.statement closed)]))))
  | forInStatement (closed : Bool) {left : Place} :
      left ∈ [.declarations, .expression .loopTarget] →
      Phrase (.statement closed) .forInStatement
        [.keyword .forKw, .mark .leftParen, .part left, .keyword .inKw, .part .top,
          .mark .rightParen, .part (.statement closed)]
  | continueStatement (closed : Bool) (label : Option String) :
      Phrase (.statement closed) (.continueStatement label)
        (.keyword .continueKw :: Item.jump label)
  | breakStatement (closed : Bool) (label : Option String) :
      Phrase (.statement closed) (.breakStatement label) (.keyword .breakKw :: Item.jump label)
  | returnStatement (closed : Bool) :
      Phrase (.statement closed) (.returnStatement false) [.keyword .returnKw, .terminator]
  | returnValueStatement (closed : Bool) :
      Phrase (.statement closed) (.returnStatement true)
        [.keyword .returnKw, .sameLine, .part .top, .terminator]
  | throwStatement (closed : Bool) :
      Phrase (.statement closed) .throwStatement [.keyword .throwKw, .part .top, .terminator]
  | switchStatement (closed : Bool) (count : Nat) :
      Phrase (.statement closed) .switchStatement
        (.keyword .switchKw :: (Item.guard ++
          .mark .leftCurly :: (Item.parts .switchCase count ++ [.mark .rightCurly])))
  | tryStatement (closed hasHandler hasFinalizer : Bool) :
      (hasHandler || hasFinalizer) = true →
      Phrase (.statement closed) (.tryStatement hasHandler hasFinalizer)
        (.keyword .tryKw :: .part .block :: ((if hasHandler then [.part .handler] else []) ++
          (if hasFinalizer then [.keyword .finallyKw, .part .block] else [])))
  | debuggerStatement (closed : Bool) :
      Phrase (.statement closed) .debuggerStatement [.keyword .debuggerKw, .terminator]
  | functionStatement (closed : Bool) (name : String) :
      Phrase (.statement closed) (.functionDeclaration name)
        [.keyword .functionKw, .word (.name name), .part .parameters, .part .block]
  | functionDeclaration (name : String) :
      Phrase .element (.functionDeclaration name)
        [.keyword .functionKw, .word (.name name), .part .parameters, .part .block]
  | switchCase (count : Nat) :
      Phrase .switchCase (.switchCase true)
        (.keyword .caseKw :: .part .top :: .mark .colon :: Item.parts .element count)
  | switchDefault (count : Nat) :
      Phrase .switchCase (.switchCase false)
        (.keyword .defaultKw :: .mark .colon :: Item.parts .element count)
  | catchClause (parameter : String) :
      Phrase .handler (.catchClause parameter)
        [.keyword .catchKw, .mark .leftParen, .word (.name parameter), .mark .rightParen,
          .part .block]
  | declarations (declaration : DeclarationKind) (count : Nat) :
      Phrase .declarations (.variableDefinitionList declaration)
        (.word (.declaration declaration) :: Item.separated (.definition false) (count + 1))
  | definition (allowIn : Bool) (name : String) :
      Phrase (.definition allowIn) (.variableDefinition name false) [.word (.name name)]
  | initialized (allowIn : Bool) (name : String) :
      Phrase (.definition allowIn) (.variableDefinition name true)
        [.word (.name name), .mark .assign, .part (.item allowIn)]
  | parameters (count : Nat) :
      Phrase .parameters .formalParameterList
        (.mark .leftParen :: (Item.separated .parameter count ++ [.mark .rightParen]))
  | parameter (name : String) :
      Phrase .parameter (.formalParameter name) [.word (.name name)]
  | arguments (count : Nat) :
      Phrase .arguments .functionArgumentList
        (.mark .leftParen :: (Item.separated (.item true) count ++ [.mark .rightParen]))
  | property (key : String) :
      Phrase .property (.property key) [.word (.key key), .mark .colon, .part (.item true)]
  | key (name : String) : Phrase .key (.literal (.string name)) [.word (.member name)]
  | construction {items : List Item} :
      Construction false items → Phrase .construction (.newExpression false) items
  | sequence (s : Slot) (count : Nat) :
      Phrase (.expression s) .sequenceExpression
        (.part (.expression (.item s.allowIn s.opening)) ::
          Item.followers (.item s.allowIn) (count + 1))
  | assignment (s : Slot) (operator : AssignOperator) :
      Phrase (.expression s) (.assignmentExpression operator)
        [.part (.expression s.stored), .word (.assign operator), .part (.item s.allowIn)]
  | conditional (s : Slot) :
      Phrase (.expression s) .conditionalExpression
        [.part (.expression (s.first 3)), .mark .hook, .part (.item true), .mark .colon,
          .part (.item s.allowIn)]
  | binary (s : Slot) (operator : BinaryOperator) :
      Phrase (.expression s) (.binaryExpression operator)
        [.part (.expression (s.first (2 + operator.precedence))), .word (.binary operator),
          .part (.expression (s.later (3 + operator.precedence)))]
  | unary (s : Slot) (operator : UnaryOperator) :
      Phrase (.expression s) (.unaryExpression operator)
        [.word (.unary operator), .part (.expression (.operand false))]
  | update (s : Slot) (operator : UpdateOperator) :
      Phrase (.expression s) (.updateExpression operator true)
        [.word (.update operator), .part (.expression (.operand true))]
  | updated (s : Slot) (operator : UpdateOperator) :
      Phrase (.expression s) (.updateExpression operator false)
        [.part (.expression s.stored), .sameLine, .word (.update operator)]
  | new (s : Slot) {hasArguments : Bool} {items : List Item} :
      Construction hasArguments items → Phrase (.expression s) (.newExpression hasArguments) items
  | call (s : Slot) :
      Phrase (.expression s) .callExpression
        [.part (.expression (s.first 16)), .part .arguments]
  | member (s : Slot) :
      Phrase (.expression s) (.memberExpression false)
        [.part (.expression s.object), .mark .dot, .part .key]
  | computedMember (s : Slot) :
      Phrase (.expression s) (.memberExpression true)
        [.part (.expression s.object), .mark .leftBracket, .part .top, .mark .rightBracket]
  | function (s : Slot) (name : Option String) :
      Phrase (.expression s) (.functionExpression name)
        (.keyword .functionKw :: (name.toList.map (.word <| .name ·) ++
          [.part .parameters, .part .block]))
  | array (s : Slot) {elements : List Item} :
      Elements elements →
      Phrase (.expression s) .arrayExpression
        (.mark .leftBracket :: (elements ++ [.mark .rightBracket]))
  | object (s : Slot) (count : Nat) {ending : List Item} :
      Trailing count ending →
      Phrase (.expression s) .objectExpression
        (.mark .leftCurly :: (Item.separated .property count ++ (ending ++ [.mark .rightCurly])))
  | this (s : Slot) : Phrase (.expression s) .thisExpression [.keyword .thisKw]
  | identifier (s : Slot) (name : String) :
      Phrase (.expression s) (.identifier name) [.word (.name name)]
  | literal (s : Slot) (value : LiteralValue) :
      Phrase (.expression s) (.literal value) [.word (.literal value)]

end ScriptLint
