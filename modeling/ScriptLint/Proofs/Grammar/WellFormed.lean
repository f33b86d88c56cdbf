import ScriptLint.Proofs.Grammar.Derived

/-!
# Well-formed trees

A node of a tree may have any children as far as its type goes. What the children of each form are
is said here by roles: `Form.shape?` lists the roles of the children of a form, and a tree is well
formed if every node has the shape of its form. No role is played by a program, and an expression
that is left out is only a clause of a loop or an element of an array.

The rules of the grammar ask for these shapes (`Phrase.accepted`), and what is read for a part of a
rule plays the role that the rule has for it (`Reads.plays`). So every tree of a script is well
formed, and its functions and calls have lists whose members can be counted.

Main statement: `program_wellFormed`.
-/

namespace ScriptLint

namespace Form

/-- The forms of statements. -/
def isStatement : Form → Bool
  | .emptyStatement | .compoundStatement | .expressionStatement | .ifStatement _
  | .breakStatement _ | .continueStatement _ | .withStatement | .switchStatement
  | .returnStatement _ | .throwStatement | .tryStatement _ _ | .whileStatement
  | .doWhileStatement | .forStatement | .forInStatement | .debuggerStatement
  | .functionDeclaration _ | .variableDefinitionList _ => true
  | _ => false

/-- The forms of expressions. -/
def isExpression : Form → Bool
  | .functionExpression _ | .thisExpression | .unaryExpression _ | .binaryExpression _
  | .assignmentExpression _ | .updateExpression _ _ | .conditionalExpression
  | .sequenceExpression | .newExpression _ | .callExpression | .memberExpression _
  | .arrayExpression | .objectExpression | .identifier _ | .literal _ => true
  | _ => false

end Form

/-- What a child is for its parent. -/
inductive Role where
  | statement
  /-- Statements in braces. -/
  | block
  | expression
  /-- An expression or nothing. -/
  | clause
  /-- The first clause of a loop, which may also be a declaration. -/
  | opening
  /-- What something is stored into. -/
  | target
  /-- What a loop over the members of an object stores into: a target or a declaration. -/
  | loopTarget
  | parameters
  | parameter
  | arguments
  | definition
  | switchCase
  | handler
  | property
  /-- A name behind a dot. -/
  | key
deriving DecidableEq, Repr

/-- Whether a node of a form can play a role. -/
def Role.holds : Role → Form → Bool
  | .statement, form => form.isStatement
  | .block, form => form.type == .compoundStatement
  | .expression, form => form.isExpression
  | .clause, form => form.isExpression || form.type == .emptyExpression
  | .opening, form =>
    form.isExpression || form.type == .emptyExpression || form.type == .variableDefinitionList
  | .target, form => form.isAssignable
  | .loopTarget, form => form.isAssignable || form.type == .variableDefinitionList
  | .parameters, form => form.type == .formalParameterList
  | .parameter, form => form.type == .formalParameter
  | .arguments, form => form.type == .functionArgumentList
  | .definition, form => form.type == .variableDefinition
  | .switchCase, form => form.type == .switchCase
  | .handler, form => form.type == .catchClause
  | .property, form => form.type == .property
  | .key, .literal (.string _) => true
  | .key, _ => false

/-- What the children of a node are, in order. -/
inductive Shape where
  | done
  /-- A child, and then others. -/
  | part (role : Role) (others : Shape)
  /-- Any number of children with the same role, but not less than `least`. -/
  | many (least : Nat) (role : Role)
deriving DecidableEq, Repr

namespace Shape

/-- One child for each role. -/
def exactly (roles : List Role) : Shape := roles.foldr part done

/-- The role of the next child, and what the children behind it are. -/
def next? : Shape → Option (Role × Shape)
  | .done => none
  | .part role others => some (role, others)
  | .many least role => some (role, .many (least - 1) role)

/-- Whether no further child is asked for. -/
def isComplete : Shape → Bool
  | .done => true
  | .part _ _ => false
  | .many least _ => least == 0

/-- Whether children of the given forms have a shape. -/
def fits : (shape : Shape) → (children : List Form) → Bool
  | shape, [] => shape.isComplete
  | shape, form :: forms =>
    match shape.next? with
    | none => false
    | some (role, others) => role.holds form && others.fits forms

end Shape

/-- The shape of the children of a form. A `try` without a handler and a finalizer has none. -/
def Form.shape? : Form → Option Shape
  | .program | .compoundStatement | .switchCase false => some (.many 0 .statement)
  | .emptyStatement | .emptyExpression | .breakStatement _ | .continueStatement _
  | .returnStatement false | .debuggerStatement | .formalParameter _
  | .variableDefinition _ false | .thisExpression | .identifier _ | .literal _ =>
    some (.exactly [])
  | .expressionStatement | .returnStatement true | .throwStatement | .variableDefinition _ true
  | .unaryExpression _ | .newExpression false | .property _ => some (.exactly [.expression])
  | .ifStatement false | .whileStatement | .withStatement =>
    some (.exactly [.expression, .statement])
  | .ifStatement true => some (.exactly [.expression, .statement, .statement])
  | .doWhileStatement => some (.exactly [.statement, .expression])
  | .forStatement => some (.exactly [.opening, .clause, .clause, .statement])
  | .forInStatement => some (.exactly [.loopTarget, .expression, .statement])
  | .switchStatement => some (.part .expression (.many 0 .switchCase))
  | .switchCase true => some (.part .expression (.many 0 .statement))
  | .tryStatement false false => none
  | .tryStatement true false => some (.exactly [.block, .handler])
  | .tryStatement false true => some (.exactly [.block, .block])
  | .tryStatement true true => some (.exactly [.block, .handler, .block])
  | .catchClause _ => some (.exactly [.block])
  | .functionDeclaration _ | .functionExpression _ => some (.exactly [.parameters, .block])
  | .formalParameterList => some (.many 0 .parameter)
  | .functionArgumentList => some (.many 0 .expression)
  | .variableDefinitionList _ => some (.many 1 .definition)
  | .binaryExpression _ | .memberExpression true => some (.exactly [.expression, .expression])
  | .assignmentExpression _ => some (.exactly [.target, .expression])
  | .updateExpression _ _ => some (.exactly [.target])
  | .conditionalExpression => some (.exactly [.expression, .expression, .expression])
  | .sequenceExpression => some (.many 2 .expression)
  | .newExpression true | .callExpression => some (.exactly [.expression, .arguments])
  | .memberExpression false => some (.exactly [.expression, .key])
  | .arrayExpression => some (.many 0 .clause)
  | .objectExpression => some (.many 0 .property)

/-- `n.WellFormed` says that the children of a node have the shape of its form. -/
def Node.WellFormed (n : Node) : Prop :=
  ∃ shape ∈ n.form.shape?, shape.fits (n.children.map Node.form) = true

instance (n : Node) : Decidable n.WellFormed :=
  inferInstanceAs (Decidable (∃ shape ∈ n.form.shape?, _))

/-! ## Roles of parts -/

/-- The roles that what stands at a place can play. -/
def Place.roles : Place → List Role
  | .program => []
  | .element | .statement _ => [.statement]
  | .block => [.block, .statement]
  | .declarations => [.opening, .loopTarget]
  | .definition _ => [.definition]
  | .parameters => [.parameters]
  | .parameter => [.parameter]
  | .arguments => [.arguments]
  | .switchCase => [.switchCase]
  | .handler => [.handler]
  | .property => [.property]
  | .key => [.key]
  | .construction => [.expression]
  | .expression s =>
    if s.target then [.target, .loopTarget, .expression] else [.expression, .clause, .opening]

/-- The roles that the node of a piece of a rule can play, if it has a node. -/
def Item.roles? : Item → Option (List Role)
  | .part place => some place.roles
  | .hole _ => some [.clause, .opening]
  | .word _ | .terminator | .option | .sameLine => none

/-- Whether the nodes of a rule have a shape by their roles alone. -/
def Shape.accepts : (shape : Shape) → (items : List Item) → Bool
  | shape, [] => shape.isComplete
  | shape, item :: items =>
    match item.roles? with
    | none => shape.accepts items
    | some roles =>
      match shape.next? with
      | none => false
      | some (role, others) => roles.contains role && others.accepts items

theorem Slot.isAssignable_of_serves {s : Slot} {form : Form} (h : s.serves form = true)
    (htarget : s.target = true) : form.isAssignable = true := by
  simpa [Slot.serves, htarget] using h

theorem Role.holds_loopTarget {form : Form} (h : form.isAssignable = true) :
    Role.loopTarget.holds form = true := by
  simp [holds, h]

/-- An expression plays the roles of its slot. -/
theorem Slot.plays {s : Slot} {form : Form} (hserves : s.serves form = true)
    (hform : form.isExpression = true) :
    ∀ role ∈ (Place.expression s).roles, role.holds form = true := by
  intro role hrole
  by_cases htarget : s.target = true
  · have hassignable := Slot.isAssignable_of_serves hserves htarget
    rw [Place.roles, if_pos htarget] at hrole
    simp only [List.mem_cons, List.not_mem_nil, or_false] at hrole
    obtain rfl | rfl | rfl := hrole
    · exact hassignable
    · exact Role.holds_loopTarget hassignable
    · exact hform
  · rw [Place.roles, if_neg htarget] at hrole
    simp only [List.mem_cons, List.not_mem_nil, or_false] at hrole
    obtain rfl | rfl | rfl := hrole <;> simp [Role.holds, hform]

/-- An expression is written in the form of one. -/
theorem Phrase.isExpression {s : Slot} {form : Form} {items : List Item}
    (h : Phrase (.expression s) form items) : form.isExpression = true := by
  cases h <;> rfl

theorem Phrase.plays {place : Place} {form : Form} {items : List Item}
    (h : Phrase place form items) (hadmits : place.admits form = true) :
    ∀ role ∈ place.roles, role.holds form = true := by
  cases place with
  | expression s => exact Slot.plays (Slot.admits_iff.1 hadmits).2.2.2 h.isExpression
  | program => exact List.forall_mem_nil _
  | _ =>
    intro role hrole
    simp only [Place.roles, List.mem_cons, List.not_mem_nil, or_false] at hrole
    cases h <;> rcases hrole with rfl | rfl <;> rfl

/-- What is read at a place plays its roles. -/
theorem Reads.plays {levels : Nat} {place : Place} {c c' : Cursor} {n : Node} :
    Reads Cursor.Implied levels place c n c' → ∀ role ∈ place.roles, role.holds n.form = true
  | .plain hadmits hphrase _ _ => hphrase.plays hadmits
  | .through hthrough hinner => by
    have hinner := hinner.plays
    cases hthrough with
    | element => exact hinner
    | block => exact fun role hrole => hinner role (.tail _ hrole)
  | .enclosed hserves _ hinner _ => Slot.plays hserves (hinner.plays .expression (.head _))

/-! ## Shapes of rules -/

namespace Shape

variable {place : Place} {role : Role} {items : List Item}

theorem accepts_part {others : Shape} (hrole : role ∈ place.roles) :
    (part role others).accepts (.part place :: items) = others.accepts items := by
  rw [accepts, Item.roles?, next?]
  simp only [List.contains_iff_mem.2 hrole, Bool.true_and]

theorem accepts_hole {mark : Punctuator} {others : Shape} (hrole : role ∈ [.clause, .opening]) :
    (part role others).accepts (.hole mark :: items) = others.accepts items := by
  rw [accepts, Item.roles?, next?]
  simp only [List.contains_iff_mem.2 hrole, Bool.true_and]

/-- One child more of many. -/
theorem many_accepts_part (hrole : role ∈ place.roles) :
    (many 0 role).accepts (.part place :: items) = (many 0 role).accepts items := by
  rw [accepts, Item.roles?, next?]
  simp only [List.contains_iff_mem.2 hrole, Bool.true_and, Nat.zero_sub]

theorem many_accepts_parts (hrole : role ∈ place.roles) (count : Nat) :
    (many 0 role).accepts (Item.parts place count ++ items) = (many 0 role).accepts items := by
  induction count with
  | zero => rfl
  | succ count ih => exact (many_accepts_part hrole).trans ih

theorem many_accepts_followers (hrole : role ∈ place.roles) (count : Nat) :
    (many 0 role).accepts (Item.followers place count ++ items) =
      (many 0 role).accepts items := by
  induction count with
  | zero => rfl
  | succ count ih => exact (many_accepts_part hrole).trans ih

theorem many_accepts_separated (hrole : role ∈ place.roles) (count : Nat) :
    (many 0 role).accepts (Item.separated place count ++ items) =
      (many 0 role).accepts items := by
  cases count with
  | zero => rfl
  | succ count => exact (many_accepts_part hrole).trans (many_accepts_followers hrole count)

theorem many_accepts_elements {elements : List Item} (h : Elements elements) :
    (many 0 .clause).accepts (elements ++ items) = (many 0 .clause).accepts items := by
  induction h with
  | nil => rfl
  | hole _ ih => exact ih
  | last => rfl
  | value _ ih => exact ih

/-- A clause in the head of a loop is one child. -/
theorem accepts_clause {mark : Punctuator} {places : List Place} {clause : List Item}
    {others : Shape} (h : Clause mark places clause) (hrole : role ∈ [.clause, .opening])
    (hplaces : ∀ place ∈ places, role ∈ place.roles) :
    (part role others).accepts (clause ++ items) = others.accepts items := by
  cases h with
  | hole => exact accepts_hole hrole
  | part hplace => exact accepts_part (hplaces _ hplace)

end Shape

/-- The parts of a rule have the shape of its form. -/
theorem Phrase.accepted {place : Place} {form : Form} {items : List Item}
    (h : Phrase place form items) :
    ∃ shape, form.shape? = some shape ∧ shape.accepts items = true := by
  cases h with
  | program count =>
    refine ⟨_, rfl, ?_⟩
    rw [← List.append_nil (Item.parts _ _), Shape.many_accepts_parts (.head _)]
    rfl
  | switchDefault count | switchCase count =>
    refine ⟨_, rfl, ?_⟩
    show (Shape.many 0 .statement).accepts (Item.parts .element count) = true
    rw [← List.append_nil (Item.parts _ _), Shape.many_accepts_parts (.head _)]
    rfl
  | compoundStatement count =>
    exact ⟨_, rfl, Shape.many_accepts_parts (.head _) count⟩
  | switchStatement _ count => exact ⟨_, rfl, Shape.many_accepts_parts (.head _) count⟩
  | variableStatement _ _ count => exact ⟨_, rfl, Shape.many_accepts_followers (.head _) count⟩
  | declarations _ count =>
    refine ⟨_, rfl, ?_⟩
    show (Shape.many 0 .definition).accepts (Item.followers _ count) = true
    rw [← List.append_nil (Item.followers _ _), Shape.many_accepts_followers (.head _)]
    rfl
  | sequence s count =>
    refine ⟨_, rfl, ?_⟩
    show (Shape.many 0 .expression).accepts (Item.followers _ count) = true
    rw [← List.append_nil (Item.followers _ _), Shape.many_accepts_followers (.head _)]
    rfl
  | parameters count => exact ⟨_, rfl, Shape.many_accepts_separated (.head _) count⟩
  | arguments count => exact ⟨_, rfl, Shape.many_accepts_separated (.head _) count⟩
  | object s count hending =>
    refine ⟨_, rfl, (Shape.many_accepts_separated (.head _) count).trans ?_⟩
    cases hending <;> rfl
  | array s helements => exact ⟨_, rfl, Shape.many_accepts_elements helements⟩
  | forStatement _ hinit htest hupdate =>
    refine ⟨_, rfl, ?_⟩
    refine (Shape.accepts_clause hinit (by decide) (by decide)).trans ?_
    refine (Shape.accepts_clause htest (by decide) (by decide)).trans ?_
    exact Shape.accepts_clause hupdate (by decide) (by decide)
  | forInStatement _ hleft =>
    obtain rfl | rfl : _ = Place.declarations ∨ _ = Place.expression .loopTarget := by
      simpa using hleft
    · exact ⟨_, rfl, rfl⟩
    · exact ⟨_, rfl, rfl⟩
  | continueStatement _ label | breakStatement _ label => cases label <;> exact ⟨_, rfl, rfl⟩
  | tryStatement _ hasHandler hasFinalizer h =>
    cases hasHandler <;> cases hasFinalizer
    · cases h
    all_goals exact ⟨_, rfl, rfl⟩
  | construction h => cases h <;> exact ⟨_, rfl, rfl⟩
  | new _ h => cases h <;> exact ⟨_, rfl, rfl⟩
  | function _ name => cases name <;> exact ⟨_, rfl, rfl⟩
  | _ => exact ⟨_, rfl, rfl⟩

/-- A node that can play the roles of a piece of a rule fits what the piece is there for. -/
theorem Shape.fits_cons {shape : Shape} {item : Item} {items : List Item} {roles : List Role}
    {form : Form} {forms : List Form} (hshape : shape.accepts (item :: items) = true)
    (hitem : item.roles? = some roles) (hform : ∀ role ∈ roles, role.holds form = true)
    (hforms : ∀ others : Shape, others.accepts items = true → others.fits forms = true) :
    shape.fits (form :: forms) = true := by
  rw [accepts, hitem] at hshape
  rw [fits]
  cases hnext : shape.next? with
  | none =>
    rw [hnext] at hshape
    cases hshape
  | some next =>
    obtain ⟨role, others⟩ := next
    rw [hnext] at hshape
    obtain ⟨hrole, hothers⟩ := Bool.and_eq_true_iff.1 hshape
    exact Bool.and_eq_true_iff.2
      ⟨hform role (List.contains_iff_mem.1 hrole), hforms others hothers⟩

/-- What is read for a rule has the shape of its parts. -/
theorem ReadsItems.fits_shape {levels : Nat} {items : List Item} {c c' : Cursor} {ns : List Node}
    {shape : Shape} (h : ReadsItems Cursor.Implied levels items c ns c')
    (hshape : shape.accepts items = true) : shape.fits (ns.map Node.form) = true := by
  induction items generalizing c ns shape with
  | nil =>
    cases h
    exact hshape
  | cons item items ih =>
    cases h with
    | word _ _ hitems | semicolon _ hitems | implied _ _ hitems | ended _ hitems
    | unended _ hitems | sameLine _ hitems => exact ih hitems hshape
    | part hn hitems => exact Shape.fits_cons hshape rfl hn.plays fun _ => ih hitems
    | hole _ hitems =>
      refine Shape.fits_cons hshape rfl ?_ fun _ => ih hitems
      show ∀ role ∈ [Role.clause, .opening], role.holds .emptyExpression = true
      decide

/-- What comes from a rule is well formed. -/
theorem Node.Derived.wellFormed {n : Node} (h : n.Derived) : n.WellFormed := by
  cases h with
  | phrase hphrase hitems =>
    obtain ⟨shape, hshape, haccepts⟩ := hphrase.accepted
    exact ⟨shape, hshape, hitems.fits_shape haccepts⟩
  | hole hform hchildren =>
    rw [Node.WellFormed, hform, hchildren]
    exact ⟨_, rfl, rfl⟩

/-! ## What well-formed trees have -/

theorem Role.not_holds_program (role : Role) : role.holds .program = false := by
  cases role <;> rfl

theorem Shape.program_notMem {shape : Shape} {forms : List Form} (h : shape.fits forms = true) :
    .program ∉ forms := by
  induction forms generalizing shape with
  | nil => exact List.not_mem_nil
  | cons form forms ih =>
    rw [fits] at h
    cases hnext : shape.next? with
    | none =>
      rw [hnext] at h
      cases h
    | some next =>
      rw [hnext] at h
      obtain ⟨hform, hforms⟩ := Bool.and_eq_true_iff.1 h
      rw [List.mem_cons, not_or]
      refine ⟨?_, ih hforms⟩
      rintro rfl
      rw [next.1.not_holds_program] at hform
      cases hform

theorem Role.form_of_parameters {form : Form} (h : Role.parameters.holds form = true) :
    form = .formalParameterList := by
  cases form
  case formalParameterList => rfl
  all_goals cases h

theorem Role.form_of_arguments {form : Form} (h : Role.arguments.holds form = true) :
    form = .functionArgumentList := by
  cases form
  case functionArgumentList => rfl
  all_goals cases h

/-- Two children, each with its role. -/
theorem Shape.exists_of_fits {role role' : Role} {ns : List Node}
    (h : (exactly [role, role']).fits (ns.map Node.form) = true) :
    ∃ m n, ns = [m, n] ∧ role.holds m.form = true ∧ role'.holds n.form = true := by
  rcases ns with _ | ⟨m, _ | ⟨n, _ | ⟨k, ns⟩⟩⟩ <;>
    simp [exactly, fits, next?, isComplete] at h
  exact ⟨m, n, rfl, h⟩

namespace Node.WellFormed

variable {n : Node}

/-- No child is a program. -/
theorem form_ne_program (h : n.WellFormed) {child : Node} (hchild : child ∈ n.children) :
    child.form ≠ .program := by
  obtain ⟨shape, -, hfits⟩ := h
  intro hprogram
  exact Shape.program_notMem hfits (hprogram ▸ List.mem_map_of_mem hchild)

/-- The parameters of a function are a list, so they can be counted. -/
theorem exists_parameters (h : n.WellFormed) (hn : n.type.isFunction = true) :
    ∃ count, n.parameterCount? = some count := by
  obtain ⟨form, span, height, children⟩ := n
  obtain ⟨shape, hshape, hfits⟩ := h
  cases form
  case functionDeclaration | functionExpression =>
    cases hshape
    obtain ⟨parameters, body, rfl, hparameters, -⟩ := Shape.exists_of_fits hfits
    have hform : parameters.form = .formalParameterList := Role.form_of_parameters hparameters
    exact ⟨_, Node.listSize?_of_form hform⟩
  all_goals cases hn

/-- The arguments of a call or a construction are a list, if there are any. -/
theorem exists_arguments (h : n.WellFormed)
    (hn : n.type = .callExpression ∨ n.type = .newExpression) :
    ∃ count, n.argumentCount? = some count := by
  obtain ⟨form, span, height, children⟩ := n
  obtain ⟨shape, hshape, hfits⟩ := h
  cases form
  case callExpression =>
    cases hshape
    obtain ⟨callee, list, rfl, -, hlist⟩ := Shape.exists_of_fits hfits
    exact ⟨_, Node.listSize?_of_form (Role.form_of_arguments hlist)⟩
  case newExpression hasArguments =>
    cases hasArguments with
    | false => exact ⟨0, rfl⟩
    | true =>
      cases hshape
      obtain ⟨callee, list, rfl, -, hlist⟩ := Shape.exists_of_fits hfits
      exact ⟨_, Node.listSize?_of_form (Role.form_of_arguments hlist)⟩
  all_goals rcases hn with hn | hn <;> cases hn

end Node.WellFormed

/-- Below a node that is no program there is none. -/
theorem Node.Everywhere.ne_program {n : Node} :
    n.Everywhere Node.WellFormed → n.form ≠ .program → n.Everywhere (·.form ≠ .program)
  | .intro hn hchildren, hform =>
    .intro hform fun child hchild =>
      (hchildren child hchild).ne_program (hn.form_ne_program hchild)

/-- What a script is read as is a well-formed program, with no other program in it, whatever tokens
it is read from. All its functions have parameters that can be counted, and all its calls and
constructions have arguments that can. -/
theorem program_wellFormed {c : Cursor} {root : Node}
    (h : (Grammar.program.run c).1 = .ok root) :
    root.form = .program ∧ root.Everywhere Node.WellFormed ∧
      (∀ child ∈ root.children, child.Everywhere (·.form ≠ .program)) ∧
      root.Everywhere fun n =>
        (n.type.isFunction = true → ∃ count, n.parameterCount? = some count) ∧
        (n.type = .callExpression ∨ n.type = .newExpression →
          ∃ count, n.argumentCount? = some count) := by
  obtain ⟨c', hrun⟩ := Parser.run_eq_ok.1 h
  obtain ⟨hform, hderived⟩ := Grammar.program_derived hrun
  have hwellFormed : root.Everywhere Node.WellFormed :=
    hderived.imp fun _ hn => hn.wellFormed
  refine ⟨hform, hwellFormed, ?_, hwellFormed.imp fun n hn => ?_⟩
  · cases hwellFormed with
    | intro hroot hchildren =>
      exact fun child hchild =>
        (hchildren child hchild).ne_program (hroot.form_ne_program hchild)
  · exact ⟨hn.exists_parameters, hn.exists_arguments⟩

/-- A loop with clauses that are left out, a hole in an array, an update of a member and a
construction with arguments. -/
theorem program_wellFormed_loop :
    ∃ root, parseTokens (tokenize "for (;;) x = [, new f(a.b++)]") = .ok root ∧
      root.form = .program ∧ root.Everywhere Node.WellFormed := by
  obtain ⟨root, hroot⟩ := exists_tree
    (show (parseTokens (tokenize "for (;;) x = [, new f(a.b++)]")).isOk = true by decide +kernel)
  obtain ⟨hform, hwellFormed, -⟩ := program_wellFormed hroot
  exact ⟨root, hroot, hform, hwellFormed⟩

end ScriptLint
