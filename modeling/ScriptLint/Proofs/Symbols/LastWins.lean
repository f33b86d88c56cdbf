import ScriptLint.Proofs.Tree.Paths
import ScriptLint.Symbols

/-!
# The last declaration of a name

What the tables of a tree hold, said of the tree alone. Each table has its own way to give a form a
name, and what it holds under a name is the last node in pre-order whose form has that name
(`Symbols.Keeps.getElem?_eq_some_iff`).

Main statement: `ofTree_keeps_last`. A table holds the nodes of some types that have a name, the
last one for each name, and lists them by name (`Symbols.Tabulates`).
-/

namespace ScriptLint

namespace Form

/-- The name under which a form is entered among the variables. -/
def variableName? : Form → Option String
  | .variableDefinition name _ | .functionDeclaration name => some name
  | _ => none

/-- The name under which a form is entered among the functions. -/
def functionName? : Form → Option String
  | .functionDeclaration name => some name
  | _ => none

/-- The name that a form mentions. -/
def mentionedName? : Form → Option String
  | .identifier name => some name
  | _ => none

/-- The name under which a form is entered among the parameters. -/
def parameterName? : Form → Option String
  | .formalParameter name | .catchClause name => some name
  | .functionExpression name => name
  | _ => none

end Form

namespace Node

/-- `root.Has n` says that `n` stands somewhere in a tree. -/
def Has (root n : Node) : Prop := ∃ path, root.descend? path = some n

/-- `root.IsLast P n` says that `n` is the last node in pre-order of which `P` holds. -/
def IsLast (root : Node) (P : Node → Prop) (n : Node) : Prop :=
  ∃ path, root.descend? path = some n ∧ P n ∧
    ∀ path' m, root.descend? path' = some m → P m → ¬ Path.Before path path'

end Node

/-- In ascending order the last member is the one that comes before no other. -/
theorem getLast?_eq_some_iff_of_ascending {α : Type} {sites : List (List Nat × α)}
    (h : sites.Pairwise fun a b => Path.Before a.1 b.1) {last : List Nat × α} :
    sites.getLast? = some last ↔ last ∈ sites ∧ ∀ site ∈ sites, ¬ Path.Before last.1 site.1 := by
  constructor
  · intro hlast
    obtain ⟨before, rfl⟩ := List.getLast?_eq_some_iff.1 hlast
    refine ⟨List.mem_append_right _ (List.mem_singleton.2 rfl), fun site hsite hafter => ?_⟩
    obtain hbefore | hsite := List.mem_append.1 hsite
    · exact hafter.asymm ((List.pairwise_append.1 h).2.2 site hbefore last (.head _))
    · rw [List.mem_singleton.1 hsite] at hafter
      exact hafter.asymm hafter
  · rintro ⟨hmem, hlast⟩
    obtain ⟨other, hother⟩ : ∃ a, sites.getLast? = some a :=
      ⟨_, List.getLast?_eq_some_getLast (List.ne_nil_of_mem hmem)⟩
    obtain ⟨before, rfl⟩ := List.getLast?_eq_some_iff.1 hother
    obtain hbefore | heq := List.mem_append.1 hmem
    · have hafter := (List.pairwise_append.1 h).2.2 last hbefore other (.head _)
      exact absurd hafter (hlast other (List.mem_append_right _ (.head _)))
    · rw [List.mem_singleton.1 heq, hother]

/-- The last visit of some kind is the one at the last path. -/
theorem Node.getLast?_walk_eq_some_iff {root n : Node} {p : Node → Bool} :
    (root.walk.filter fun visit => p visit.node).getLast?.map Visit.node = some n ↔
      root.IsLast (p · = true) n := by
  have hascending := root.sites_ascending.filter fun site => p site.2.node
  rw [← root.map_sites, List.filter_map, List.getLast?_map, Option.map_map,
    Option.map_eq_some_iff]
  simp only [Function.comp_def, getLast?_eq_some_iff_of_ascending hascending, List.mem_filter]
  constructor
  · rintro ⟨⟨path, visit⟩, ⟨⟨hsite, hp⟩, hlast⟩, rfl⟩
    obtain ⟨n, hn, rfl⟩ := mem_sites_iff.1 hsite
    refine ⟨path, hn, hp, fun path' m hm hpm => ?_⟩
    exact hlast (path', _) ⟨mem_sites_iff.2 ⟨m, hm, rfl⟩, hpm⟩
  · rintro ⟨path, hn, hp, hlast⟩
    refine ⟨(path, _), ⟨⟨mem_sites_iff.2 ⟨n, hn, rfl⟩, hp⟩, ?_⟩, rfl⟩
    rintro ⟨path', visit⟩ ⟨hsite, hpm⟩
    obtain ⟨m, hm, rfl⟩ := mem_sites_iff.1 hsite
    exact hlast path' m hm hpm

namespace Symbols

/-- The table with a node entered under a name, if it has one. -/
def enter (table : NameTable) (n : Node) : Option String → NameTable
  | none => table
  | some name => table.insert name n

/-- What is entered replaces what was there under the same name. -/
theorem getElem?_enter (table : NameTable) (n : Node) (key : Option String) (name : String) :
    (enter table n key)[name]? = if key = some name then some n else table[name]? := by
  cases key with
  | none => rfl
  | some other =>
    rw [enter, Std.TreeMap.getElem?_insert]
    simp only [Std.LawfulEqCmp.compare_eq_iff_eq, Option.some.injEq]

/-- `Keeps table key` says that a table is empty at first and that each node is entered into it
under the name that `key` gives its form. -/
structure Keeps (table : Symbols → NameTable) (key : Form → Option String) : Prop where
  start : table {} = ∅
  step : ∀ symbols n, table (symbols.record n) = enter (table symbols) n (key n.form)

/-- A node goes into each table in the same way. -/
theorem record_eq (symbols : Symbols) (n : Node) :
    symbols.record n =
      { vars := enter symbols.vars n n.form.variableName?
        functions := enter symbols.functions n n.form.functionName?
        identifiers := enter symbols.identifiers n n.form.mentionedName?
        parameters := enter symbols.parameters n n.form.parameterName? } := by
  obtain ⟨form, _⟩ := n
  cases form with
  | functionExpression name => cases name <;> rfl
  | _ => rfl

theorem keeps_vars : Keeps vars Form.variableName? :=
  ⟨rfl, fun _ _ => by rw [record_eq]⟩

theorem keeps_functions : Keeps functions Form.functionName? :=
  ⟨rfl, fun _ _ => by rw [record_eq]⟩

theorem keeps_identifiers : Keeps identifiers Form.mentionedName? :=
  ⟨rfl, fun _ _ => by rw [record_eq]⟩

theorem keeps_parameters : Keeps parameters Form.parameterName? :=
  ⟨rfl, fun _ _ => by rw [record_eq]⟩

namespace Keeps

variable {table : Symbols → NameTable} {key : Form → Option String} {root n : Node} {name : String}

/-- After some visits a table has the last of their nodes with a name, or what it had before. -/
theorem getElem?_foldl (h : Keeps table key) (visits : List Visit) (symbols : Symbols) :
    (table (visits.foldl (fun symbols visit => symbols.record visit.node) symbols))[name]? =
      ((visits.filter fun visit => key visit.node.form = some name).getLast?.map Visit.node).or
        (table symbols)[name]? := by
  induction visits generalizing symbols with
  | nil => rfl
  | cons visit visits ih =>
    rw [List.foldl_cons, ih, h.step, getElem?_enter]
    by_cases hkey : key visit.node.form = some name
    · rw [if_pos hkey, List.filter_cons_of_pos (by simpa using hkey), List.getLast?_cons]
      cases (visits.filter _).getLast? <;> rfl
    · rw [if_neg hkey, List.filter_cons_of_neg (by simpa using hkey)]

/-- The table has the last visit of the walk with the name. -/
theorem getElem?_ofTree (h : Keeps table key) :
    (table (ofTree root))[name]? =
      (root.walk.filter fun visit => key visit.node.form = some name).getLast?.map Visit.node := by
  rw [ofTree, h.getElem?_foldl, h.start, Std.TreeMap.getElem?_emptyc, Option.or_none]

/-- A table has under a name the last node of the tree with that name. -/
theorem getElem?_eq_some_iff (h : Keeps table key) :
    (table (ofTree root))[name]? = some n ↔ root.IsLast (fun m => key m.form = some name) n := by
  rw [h.getElem?_ofTree, Node.getLast?_walk_eq_some_iff (p := fun m => key m.form = some name)]
  simp only [decide_eq_true_eq]

/-- A table has the names that its nodes have. -/
theorem contains_iff (h : Keeps table key) :
    (table (ofTree root)).contains name = true ↔ ∃ n, root.Has n ∧ key n.form = some name := by
  rw [Std.TreeMap.contains_eq_isSome_getElem?, h.getElem?_ofTree, Option.isSome_map,
    List.getLast?_isSome]
  constructor
  · intro hne
    obtain ⟨visit, hvisit⟩ := List.exists_mem_of_ne_nil _ hne
    obtain ⟨hwalk, hkey⟩ := List.mem_filter.1 hvisit
    obtain ⟨path, n, hn, rfl⟩ := Node.mem_walk_iff.1 hwalk
    exact ⟨n, ⟨path, hn⟩, of_decide_eq_true hkey⟩
  · rintro ⟨n, ⟨path, hn⟩, hkey⟩
    have hwalk := Node.mem_walk_iff.2 ⟨path, n, hn, rfl⟩
    exact List.ne_nil_of_mem (List.mem_filter.2 ⟨hwalk, decide_eq_true hkey⟩)

end Keeps

end Symbols

/-! ## What the tables list -/

/-- One name comes before another in the order of code points. -/
def Name.Before (name other : String) : Prop :=
  List.Lex (fun c d : Char => c.toNat < d.toNat) name.toList other.toList

theorem Name.before_iff {name other : String} : Before name other ↔ compare name other = .lt := by
  show _ ↔ compareOfLessAndEq name other = .lt
  rw [compareOfLessAndEq_eq_lt, String.lt_iff, ← List.lex_lt]
  exact Iff.rfl

/-- `n.Bears types name` says that a node is of one of some types and has a name. -/
def Node.Bears (types : List NodeType) (name : String) (n : Node) : Prop :=
  n.type ∈ types ∧ n.name? = some name

namespace Form

variable {form : Form} {name : String}

/-- The forms under whose names variables are looked up. -/
theorem variableName?_eq_some_iff_type : form.variableName? = some name ↔
    form.type ∈ [.variableDefinition, .functionDeclaration] ∧ form.name? = some name := by
  cases form <;> simp [variableName?, Form.type, name?]

/-- The form under whose name functions are looked up. -/
theorem functionName?_eq_some_iff_type : form.functionName? = some name ↔
    form.type ∈ [.functionDeclaration] ∧ form.name? = some name := by
  cases form <;> simp [functionName?, Form.type, name?]

/-- The form that mentions a name. -/
theorem mentionedName?_eq_some_iff_type : form.mentionedName? = some name ↔
    form.type ∈ [.identifier] ∧ form.name? = some name := by
  cases form <;> simp [mentionedName?, Form.type, name?]

/-- The forms under whose names parameters are looked up. -/
theorem parameterName?_eq_some_iff_type : form.parameterName? = some name ↔
    form.type ∈ [.formalParameter, .catchClause, .functionExpression] ∧
      form.name? = some name := by
  cases form <;> simp [parameterName?, Form.type, name?]

end Form

namespace Symbols

/-- What a table of a tree says if it is about the nodes of some types that have a name. -/
structure Tabulates (table : NameTable) (root : Node) (types : List NodeType) : Prop where
  /-- Under a name stands the last node in pre-order that bears it. -/
  last : ∀ name n, table[name]? = some n ↔ root.IsLast (Node.Bears types name) n
  /-- Nothing stands under a name that no node bears. -/
  absent : ∀ name, table[name]? = none ↔ ¬ ∃ n, root.Has n ∧ n.Bears types name
  /-- What is listed is what stands under the names. -/
  listed : ∀ name n, (name, n) ∈ table.toList ↔ table[name]? = some n
  /-- The names are listed in ascending order, and none of them twice. -/
  ascending : table.toList.Pairwise fun entry entry' => Name.Before entry.1 entry'.1

/-- Each of the tables says which nodes bear its names. -/
theorem Keeps.tabulates {table : Symbols → NameTable} {key : Form → Option String}
    {types : List NodeType} (h : Keeps table key)
    (hkey : ∀ form name, key form = some name ↔ form.type ∈ types ∧ form.name? = some name)
    (root : Node) : Tabulates (table (ofTree root)) root types where
  last name n := by
    have hbears : (fun m : Node => key m.form = some name) = Node.Bears types name :=
      funext fun m => propext (hkey m.form name)
    rw [h.getElem?_eq_some_iff, hbears]
  absent name := by
    rw [← Option.not_isSome_iff_eq_none, ← Std.TreeMap.contains_eq_isSome_getElem?,
      h.contains_iff]
    simp only [hkey]
    rfl
  listed name n := Std.TreeMap.mem_toList_iff_getElem?_eq_some
  ascending := Std.TreeMap.ordered_keys_toList.imp Name.before_iff.2

/-- A name stands in a table if some node bears it. -/
theorem Tabulates.contains_iff {table : NameTable} {root : Node} {types : List NodeType}
    (h : Tabulates table root types) (name : String) :
    table.contains name = true ↔ ∃ n, root.Has n ∧ n.Bears types name := by
  rw [Std.TreeMap.contains_eq_isSome_getElem?, Option.isSome_iff_ne_none, ne_eq, h.absent name,
    Classical.not_not]

end Symbols

/-- The tables of a tree hold the last node in pre-order for each name, of the types that the table
is for, and no other names. A name of the functions is one of the variables too. The questions to
the tables are answered by the nodes that the tree has. -/
theorem ofTree_keeps_last (root : Node) :
    let symbols := Symbols.ofTree root
    Symbols.Tabulates symbols.vars root [.variableDefinition, .functionDeclaration] ∧
    Symbols.Tabulates symbols.functions root [.functionDeclaration] ∧
    Symbols.Tabulates symbols.identifiers root [.identifier] ∧
    Symbols.Tabulates symbols.parameters root
      [.formalParameter, .catchClause, .functionExpression] ∧
    ∀ name,
      (symbols.functions.contains name = true → symbols.vars.contains name = true) ∧
      (symbols.isDeclared name = true ↔ ∃ n, root.Has n ∧
        n.Bears [.variableDefinition, .functionDeclaration, .formalParameter, .catchClause,
          .functionExpression] name) ∧
      (symbols.isReferenced name = true ↔ ∃ n, root.Has n ∧ n.Bears [.identifier] name) ∧
      (∀ n, symbols.function? name = some n ↔
        root.IsLast (Node.Bears [.functionDeclaration] name) n) ∧
      (symbols.function? name = none ↔
        ¬ ∃ n, root.Has n ∧ n.Bears [.functionDeclaration] name) := by
  intro symbols
  have hvars := Symbols.keeps_vars.tabulates (fun _ _ => Form.variableName?_eq_some_iff_type) root
  have hfunctions :=
    Symbols.keeps_functions.tabulates (fun _ _ => Form.functionName?_eq_some_iff_type) root
  have hidentifiers :=
    Symbols.keeps_identifiers.tabulates (fun _ _ => Form.mentionedName?_eq_some_iff_type) root
  have hparameters :=
    Symbols.keeps_parameters.tabulates (fun _ _ => Form.parameterName?_eq_some_iff_type) root
  refine ⟨hvars, hfunctions, hidentifiers, hparameters, fun name => ⟨?_, ?_, ?_, ?_, ?_⟩⟩
  · rw [hfunctions.contains_iff, hvars.contains_iff]
    rintro ⟨n, hn, htype, hname⟩
    exact ⟨n, hn, List.mem_cons_of_mem _ htype, hname⟩
  · rw [Symbols.isDeclared, Bool.or_eq_true, hvars.contains_iff, hparameters.contains_iff,
      ← exists_or]
    refine exists_congr fun n => ?_
    rw [← and_or_left, Node.Bears, Node.Bears, ← or_and_right, ← List.mem_append]
    rfl
  · exact hidentifiers.contains_iff name
  · exact hfunctions.last name
  · exact hfunctions.absent name

end ScriptLint
