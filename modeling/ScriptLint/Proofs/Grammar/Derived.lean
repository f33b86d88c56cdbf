import ScriptLint.Proofs.Grammar.Location
import ScriptLint.Proofs.Symbols.LastWins

/-!
# Every node comes from a rule

What the grammar says about a node wherever it stands in the tree of a script: its children are the
parts of a phrase for its form, unless it is an expression that was left out (`Node.Derived`). So a
function has a list of parameters and a call a list of arguments, and both can be counted.
-/

namespace ScriptLint

/-- `n.Derived` says that the children of a node are read by a rule for its form. An expression that
is left out has no rule and no children. -/
inductive Node.Derived : Node → Prop where
  | phrase {n : Node} {place : Place} {items : List Item} {levels : Nat} {c c' : Cursor} :
      Phrase place n.form items → ReadsItems Cursor.Implied levels items c n.children c' →
      n.Derived
  | hole {n : Node} : n.form = .emptyExpression → n.children = [] → n.Derived

mutual
/-- All nodes of a reading come from rules. -/
theorem Reads.derived {levels : Nat} {place : Place} {c c' : Cursor} {n : Node} :
    Reads Cursor.Implied levels place c n c' → n.Everywhere Node.Derived
  | .plain _ hphrase hitems _ => .intro (.phrase hphrase hitems) hitems.derived
  | .enclosed _ _ hinner _ => hinner.derived
  | .through _ hinner => hinner.derived

theorem ReadsItems.derived {levels : Nat} {items : List Item} {c c' : Cursor} {ns : List Node} :
    ReadsItems Cursor.Implied levels items c ns c' → ∀ n ∈ ns, n.Everywhere Node.Derived
  | .nil => List.forall_mem_nil _
  | .part hn hitems => List.forall_mem_cons.2 ⟨hn.derived, hitems.derived⟩
  | .hole _ hitems =>
    List.forall_mem_cons.2 ⟨.intro (.hole rfl rfl) (List.forall_mem_nil _), hitems.derived⟩
  | .word _ _ hitems | .semicolon _ hitems | .implied _ _ hitems | .ended _ hitems
  | .unended _ hitems | .sameLine _ hitems => hitems.derived
end

/-- A program is read as its elements, wherever it is said to start. -/
theorem Grammar.program_parts {c c' : Cursor} {n : Node} (h : program c = .ok n c') :
    ∃ start body, n = Node.build .program ⟨start, c'.lastEnd⟩ body ∧
      ReadsItems Cursor.Implied maxNesting (Item.parts .element body.length) c body c' := by
  simp only [program, programOf, Parser.bind_eq_ok, Parser.finish_eq_ok] at h
  obtain ⟨start, _, hstart, body, m, hbody, rfl, rfl⟩ := h
  cases hstart
  obtain ⟨m', hitems, -, rfl⟩ := repeated_read programMember_cases (Parser.collect_sound hbody)
  exact ⟨_, body, rfl, hitems⟩

theorem Grammar.program_derived {c c' : Cursor} {n : Node} (h : program c = .ok n c') :
    n.form = .program ∧ n.Everywhere Node.Derived := by
  obtain ⟨start, body, rfl, hitems⟩ := program_parts h
  exact ⟨rfl, .intro (.phrase (.program body.length) hitems) hitems.derived⟩

theorem Node.Everywhere.imp {P Q : Node → Prop} {n : Node} (hPQ : ∀ m, P m → Q m) :
    n.Everywhere P → n.Everywhere Q
  | .intro hn hchildren => .intro (hPQ n hn) fun child hchild => (hchildren child hchild).imp hPQ

/-- What holds everywhere in a tree holds of what is in it. -/
theorem Node.Everywhere.of_has {P : Node → Prop} {root n : Node} (h : root.Everywhere P)
    (hn : root.Has n) : P n := by
  obtain ⟨path, hn⟩ := hn
  induction path generalizing root with
  | nil =>
    cases hn
    cases h with
    | intro hroot _ => exact hroot
  | cons i path ih =>
    cases hchild : root.children[i]? with
    | none =>
      rw [Node.descend?, hchild] at hn
      cases hn
    | some child =>
      rw [Node.descend?_cons hchild] at hn
      cases h with
      | intro _ hchildren => exact ih (hchildren child (List.mem_of_getElem? hchild)) hn

/-! ## Counts -/

/-- The form of what stands at a place, where it is always the same. -/
def Place.form? : Place → Option Form
  | .program => some .program
  | .parameters => some .formalParameterList
  | .arguments => some .functionArgumentList
  | .block => some .compoundStatement
  | _ => none

theorem Reads.form_eq {levels : Nat} {place : Place} {c c' : Cursor} {n : Node} {form : Form}
    (h : Reads Cursor.Implied levels place c n c') (hform : place.form? = some form) :
    n.form = form := by
  cases h with
  | plain _ hphrase _ _ =>
    cases hphrase <;> cases hform <;> rfl
  | enclosed => cases hform
  | through hthrough _ => cases hthrough <;> cases hform

theorem Node.listSize?_of_form {form : Form} {list : Node} (h : list.form = form) :
    list.listSize? form = some list.children.length := by
  rw [listSize?, if_pos h]

namespace Node.Derived

variable {n : Node}

/-- The parameters of a function can be counted. -/
theorem exists_parameterCount {name : String} (h : n.Derived)
    (hform : n.form = .functionDeclaration name) : ∃ count, n.parameterCount? = some count := by
  obtain ⟨form, span, height, children⟩ := n
  cases hform
  cases h with
  | hole hempty _ => cases hempty
  | @phrase _ items _ _ _ hphrase hitems =>
    -- a function is written in the same way wherever it stands
    obtain rfl : items =
        [.keyword .functionKw, .word (.name name), .part .parameters, .part .block] := by
      cases hphrase <;> rfl
    cases hitems with
    | word _ _ hitems =>
      cases hitems with
      | word _ _ hitems =>
        cases hitems with
        | part hlist _ => exact ⟨_, Node.listSize?_of_form (hlist.form_eq rfl)⟩

/-- The arguments of a call can be counted. -/
theorem exists_argumentCount (h : n.Derived) (hform : n.form = .callExpression) :
    ∃ count, n.argumentCount? = some count := by
  obtain ⟨form, span, height, children⟩ := n
  cases hform
  cases h with
  | hole hempty _ => cases hempty
  | phrase hphrase hitems =>
    cases hphrase with
    | call s =>
      cases hitems with
      | part _ hitems =>
        cases hitems with
        | part hlist _ => exact ⟨_, Node.listSize?_of_form (hlist.form_eq rfl)⟩

end Node.Derived

/-- The tree of a script is a program, and its nodes come from rules. -/
theorem derived_of_parse {source : String} {root : Node} (h : parse source = .ok root) :
    root.form = .program ∧ root.Everywhere Node.Derived := by
  obtain ⟨last, hread⟩ := program_reads_of_parseTokens h
  exact ⟨hread.form_eq rfl, hread.derived⟩

end ScriptLint
