import ScriptLint.Proofs.Grammar.Phrase
import ScriptLint.Proofs.Tree.Unlocated
import ScriptLint.Token.Segment

/-!
# The canonical script of a tree

`Node.print` writes a tree by the rules of the grammar. Among the phrases of a form it takes one:
every statement that can end with a `;` does, no comma stands behind the last element of an array or
the last member of an object, and what `new` constructs is no bare construction. Parentheses stand
around an expression if and only if its slot does not admit it, so each pair is as far inside as it
can be.

The tokens of a canonical script have no places of their own. They all stand at the origin, and so
does every node of the tree that they are read as: `Node.unlocated` forgets where a tree was.
-/

namespace ScriptLint

/-! ## Words -/

/-- The token of a reserved word, a word that stands for a value, or a name. -/
def Token.ofWord (word : String) : Token :=
  match Segment.classifyWord word with
  | .token kind value => .nowhere kind value
  | .gap => .nowhere .identifier (.identifier word)

/-- The token of an operator. -/
def Token.ofSpelling (spelling : String) : Token :=
  match Punctuator.ofSpelling? spelling with
  | some mark => .nowhere (.punctuator mark) .none
  | none => .ofWord spelling

/-- The token of a literal. -/
def LiteralValue.token : LiteralValue → Token
  | .number value => .nowhere .numeric (.number value)
  | .string value => .nowhere .string (.text value)
  | .boolean value => .nowhere .boolean (.boolean value)
  | .null => .nowhere .null .null
  | .undefined => .nowhere .undefined .undefined

/-- The token that a word is printed as. The key of an object literal is a string. -/
def Word.token : Word → Token
  | .mark m => .nowhere (.punctuator m) .none
  | .keyword k => .nowhere (.keyword k) (.keyword k.word)
  | .name x => .nowhere .identifier (.identifier x)
  | .literal value => value.token
  | .key x => .nowhere .string (.text x)
  | .member x => .ofWord x
  | .declaration d => .ofSpelling d.spelling
  | .binary operator => .ofSpelling operator.spelling
  | .assign operator => .ofSpelling operator.spelling
  | .unary operator => .ofSpelling operator.spelling
  | .update operator => .ofSpelling operator.spelling

/-- `w.Prints t` says that `t` can be printed for the word `w`: the rules take it for the word, the
parser does not pass over it, and it has no place. -/
structure Word.Prints (w : Word) (t : Token) : Prop where
  matches_word : w.Matches t
  isTrivia : t.isTrivia = false
  span : t.span = .nowhere

/-- Every word can stand behind a dot. -/
theorem Word.prints_ofWord (word : String) : (Word.member word).Prints (.ofWord word) := by
  unfold Token.ofWord Segment.classifyWord
  by_cases hnull : word = "null"
  · subst hnull
    exact ⟨rfl, rfl, rfl⟩
  by_cases hundefined : word = "undefined"
  · subst hundefined
    exact ⟨rfl, rfl, rfl⟩
  by_cases htrue : word = "true"
  · subst htrue
    exact ⟨rfl, rfl, rfl⟩
  by_cases hfalse : word = "false"
  · subst hfalse
    exact ⟨rfl, rfl, rfl⟩
  rw [if_neg hnull, if_neg hundefined, if_neg htrue, if_neg hfalse]
  cases Keyword.ofWord? word <;> exact ⟨rfl, rfl, rfl⟩

/-- The token of a word can be printed for it. -/
theorem Word.prints_token (w : Word) : w.Prints w.token := by
  cases w with
  | mark | keyword | name => exact ⟨rfl, rfl, rfl⟩
  | key => exact ⟨⟨rfl, nofun⟩, rfl, rfl⟩
  | literal value => cases value <;> exact ⟨rfl, rfl, rfl⟩
  | member x => exact prints_ofWord x
  | declaration d => cases d <;> exact ⟨rfl, rfl, rfl⟩
  | binary operator => cases operator <;> exact ⟨rfl, rfl, rfl⟩
  | assign operator => cases operator <;> exact ⟨rfl, rfl, rfl⟩
  | unary operator => cases operator <;> exact ⟨rfl, rfl, rfl⟩
  | update operator => cases operator <;> exact ⟨rfl, rfl, rfl⟩

/-! ## Rules -/

namespace Item

/-- A clause in the head of a loop and the mark behind it, for a clause of a form. -/
def clause (mark : Punctuator) (place : Place) : Form → List Item
  | .emptyExpression => [.hole mark]
  | _ => [.part place, .mark mark]

/-- The elements of an array, given their forms. -/
def elements : List Form → List Item
  | [] => []
  | .emptyExpression :: forms => .hole .comma :: elements forms
  | [_] => [.part (.item true)]
  | _ :: forms => .part (.item true) :: mark .comma :: elements forms

theorem clause_of_ne {mark : Punctuator} {place : Place} {form : Form}
    (h : form ≠ .emptyExpression) : clause mark place form = [.part place, .mark mark] := by
  unfold clause
  split
  · exact absurd rfl h
  · rfl

theorem elements_cons {form : Form} {forms : List Form} (h : form ≠ .emptyExpression) :
    elements (form :: forms) = .part (.item true) ::
      if forms = [] then [] else .mark .comma :: elements forms := by
  cases forms with
  | nil => simp [elements]
  | cons next forms => simp [elements]

end Item

/-- Elements are printed as elements. -/
theorem Elements.canonical (forms : List Form) : Elements (Item.elements forms) := by
  fun_induction Item.elements forms with
  | case1 => exact .nil
  | case2 _ ih => exact .hole ih
  | case3 => exact .last
  | case4 _ _ _ _ ih => exact .value ih

namespace Place

/-- Whether a statement here stands before an `else` that is not its own. -/
def closed : Place → Bool
  | .statement closed => closed
  | _ => false

/-- The slot of an expression here. -/
def slot : Place → Slot
  | .expression slot => slot
  | _ => .top

/-- Where the head of a loop starts, given the form of what stands there: a declaration, or else an
expression in a slot. -/
def loopHead (slot : Slot) : Form → Place
  | .variableDefinitionList _ => .declarations
  | _ => .expression slot

/-- How a node is printed at a place, given the forms of its children. -/
def canonical (place : Place) (parts : List Form) : Form → List Item
  | .program => Item.parts .element parts.length
  | .emptyStatement => [.mark .semicolon]
  | .compoundStatement =>
    .mark .leftCurly :: (Item.parts .element parts.length ++ [.mark .rightCurly])
  | .expressionStatement => [.part (.expression (.whole true true)), .terminator]
  | .emptyExpression => []
  | .ifStatement false => .keyword .ifKw :: (Item.guard ++ [.part (.statement false)])
  | .ifStatement true =>
    -- the first statement must not take the `else`
    .keyword .ifKw :: (Item.guard ++
      [.part (.statement true), .keyword .elseKw, .part (.statement place.closed)])
  | .whileStatement => .keyword .whileKw :: (Item.guard ++ [.part (.statement place.closed)])
  | .withStatement => .keyword .withKw :: (Item.guard ++ [.part (.statement place.closed)])
  | .doWhileStatement =>
    .keyword .doKw :: .part (.statement false) :: .keyword .whileKw :: (Item.guard ++ [.option])
  | .forStatement =>
    match parts with
    | start :: test :: update :: _ =>
      .keyword .forKw :: .mark .leftParen ::
        (Item.clause .semicolon (loopHead (.whole false false) start) start ++
          (Item.clause .semicolon .top test ++
            (Item.clause .rightParen .top update ++ [.part (.statement place.closed)])))
    | _ => []
  | .forInStatement =>
    match parts with
    | left :: _ =>
      [.keyword .forKw, .mark .leftParen, .part (loopHead .loopTarget left), .keyword .inKw,
        .part .top, .mark .rightParen, .part (.statement place.closed)]
    | _ => []
  | .continueStatement label => .keyword .continueKw :: Item.jump label
  | .breakStatement label => .keyword .breakKw :: Item.jump label
  | .returnStatement false => [.keyword .returnKw, .terminator]
  | .returnStatement true => [.keyword .returnKw, .sameLine, .part .top, .terminator]
  | .throwStatement => [.keyword .throwKw, .part .top, .terminator]
  | .switchStatement =>
    .keyword .switchKw :: (Item.guard ++
      .mark .leftCurly :: (Item.parts .switchCase (parts.length - 1) ++ [.mark .rightCurly]))
  | .tryStatement hasHandler hasFinalizer =>
    .keyword .tryKw :: .part .block :: ((if hasHandler then [.part .handler] else []) ++
      (if hasFinalizer then [.keyword .finallyKw, .part .block] else []))
  | .debuggerStatement => [.keyword .debuggerKw, .terminator]
  | .functionDeclaration name =>
    [.keyword .functionKw, .word (.name name), .part .parameters, .part .block]
  | .switchCase true =>
    .keyword .caseKw :: .part .top :: .mark .colon :: Item.parts .element (parts.length - 1)
  | .switchCase false => .keyword .defaultKw :: .mark .colon :: Item.parts .element parts.length
  | .catchClause name =>
    [.keyword .catchKw, .mark .leftParen, .word (.name name), .mark .rightParen, .part .block]
  | .variableDefinitionList declaration =>
    match place with
    | .declarations =>
      .word (.declaration declaration) :: Item.separated (.definition false) parts.length
    | _ =>
      .word (.declaration declaration) ::
        (Item.separated (.definition true) parts.length ++ [.terminator])
  | .variableDefinition name false => [.word (.name name)]
  | .variableDefinition name true =>
    match place with
    | .definition allowIn => [.word (.name name), .mark .assign, .part (.item allowIn)]
    | _ => []
  | .formalParameterList =>
    .mark .leftParen :: (Item.separated .parameter parts.length ++ [.mark .rightParen])
  | .formalParameter name => [.word (.name name)]
  | .functionArgumentList =>
    .mark .leftParen :: (Item.separated (.item true) parts.length ++ [.mark .rightParen])
  | .property name => [.word (.key name), .mark .colon, .part (.item true)]
  | .sequenceExpression =>
    .part (.expression (.item place.slot.allowIn place.slot.opening)) ::
      Item.followers (.item place.slot.allowIn) (parts.length - 1)
  | .assignmentExpression operator =>
    [.part (.expression place.slot.stored), .word (.assign operator),
      .part (.item place.slot.allowIn)]
  | .conditionalExpression =>
    -- between the two marks `in` is an operator even in the head of a loop
    [.part (.expression (place.slot.first 3)), .mark .hook, .part (.item true), .mark .colon,
      .part (.item place.slot.allowIn)]
  | .binaryExpression operator =>
    [.part (.expression (place.slot.first (2 + operator.precedence))), .word (.binary operator),
      .part (.expression (place.slot.later (3 + operator.precedence)))]
  | .unaryExpression operator => [.word (.unary operator), .part (.expression (.operand false))]
  | .updateExpression operator true =>
    [.word (.update operator), .part (.expression (.operand true))]
  | .updateExpression operator false =>
    [.part (.expression place.slot.stored), .sameLine, .word (.update operator)]
  | .newExpression true =>
    -- what is constructed may not be a call, whose arguments would be taken for those of `new`
    [.keyword .newKw, .part (.expression .constructed), .part .arguments]
  | .newExpression false => [.keyword .newKw, .part (.expression .constructed)]
  | .callExpression => [.part (.expression (place.slot.first 16)), .part .arguments]
  | .memberExpression false =>
    [.part (.expression place.slot.object), .mark .dot, .part .key]
  | .memberExpression true =>
    [.part (.expression place.slot.object), .mark .leftBracket, .part .top, .mark .rightBracket]
  | .functionExpression name =>
    .keyword .functionKw :: (name.toList.map (.word <| .name ·) ++
      [.part .parameters, .part .block])
  | .arrayExpression => .mark .leftBracket :: (Item.elements parts ++ [.mark .rightBracket])
  | .objectExpression =>
    .mark .leftCurly :: (Item.separated .property parts.length ++ [.mark .rightCurly])
  | .thisExpression => [.keyword .thisKw]
  | .identifier name => [.word (.name name)]
  | .literal value =>
    match place, value with
    -- a name behind a dot is stored as a string
    | .key, .string name => [.word (.member name)]
    | _, _ => [.word (.literal value)]

end Place

/-! ## Trees -/

/-- The words of the pieces of a rule, given the words of its parts for every place. Each `;` that
may stand does. -/
def Item.spell : List Item → List (Place → List Word) → List Word
  | [], _ => []
  | .word w :: items, nodes => w :: spell items nodes
  | .part place :: items, node :: nodes => node place ++ spell items nodes
  | .hole m :: items, _ :: nodes => .mark m :: spell items nodes
  | .terminator :: items, nodes | .option :: items, nodes =>
    .mark .semicolon :: spell items nodes
  | _ :: items, nodes => spell items nodes

/-- How a node is printed at a place. -/
def Node.rule (n : Node) (place : Place) : List Item :=
  place.canonical (n.children.map Node.form) n.form

namespace Node

mutual
/-- The words of a node at a place. -/
def words : Node → Place → List Word
  | ⟨form, span, height, children⟩, place =>
    let n : Node := ⟨form, span, height, children⟩
    if place.admits form then Item.spell (n.rule place) (wordsOf children)
    else .mark .leftParen :: (Item.spell (n.rule .top) (wordsOf children) ++ [.mark .rightParen])

/-- The words of nodes, one after the other, for every place. -/
def wordsOf : List Node → List (Place → List Word)
  | [] => []
  | n :: ns => words n :: wordsOf ns
end

/-- The canonical tokens of a tree. -/
def print (n : Node) : List Token := (n.words .program).map Word.token

end Node

end ScriptLint
