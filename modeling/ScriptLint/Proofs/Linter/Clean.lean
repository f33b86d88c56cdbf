import ScriptLint.Proofs.Grammar.Derived
import ScriptLint.Proofs.Linter.Blanks
import ScriptLint.Proofs.Pattern.Literal
import ScriptLint.Proofs.Rule.Entries

/-!
# Scripts that the built-in rules accept

`Clean root` says what the built-in rules ask of a tree, in terms of its nodes alone: there are no
tables of names, no order in which a walk meets them, and no contexts. For each rule there is a
lemma that says when it is silent. Names come from tables that are filled by a walk of the whole
tree, so what a rule looks up is what the tree has somewhere; counts are there because the tree was
read by the rules of the grammar.

Main statement: `builtin_analyze_eq_nil_iff`.
-/

namespace ScriptLint

/-- The name that a form declares. -/
def Form.declaredName? : Form → Option String
  | .variableDefinition name _ | .functionDeclaration name | .formalParameter name
  | .catchClause name => some name
  | .functionExpression name => name
  | _ => none

/-- What the built-in rules ask of a tree. -/
structure Clean (root : Node) : Prop where
  /-- What is mentioned is declared. -/
  declared : ∀ n name, root.Has n → n.form = .identifier name →
    ∃ m, root.Has m ∧ m.form.declaredName? = some name
  /-- Variables and functions are mentioned. -/
  mentioned : ∀ n name, root.Has n → n.form.variableName? = some name →
    ∃ m, root.Has m ∧ m.form = .identifier name
  /-- A call of a declared function has as many arguments as its last declaration has parameters. -/
  counted : ∀ call callee others name f, root.Has call → call.form = .callExpression →
    call.children = callee :: others → callee.form = .identifier name →
    root.IsLast (fun m => m.form = .functionDeclaration name) f →
    ∃ count, call.argumentCount? = some count ∧ f.parameterCount? = some count
  /-- The names of variables do not have `fun` in them. -/
  named : ∀ n name hasInit, root.Has n → n.form = .variableDefinition name hasInit →
    ¬ "fun".toList <:+: name.toList
  /-- What returns is inside a function. -/
  inside : ∀ path n, root.descend? path = some n → n.type = .returnStatement →
    ∃ above ∈ root.ancestors path,
      above.type = .functionDeclaration ∨ above.type = .functionExpression

/-! ## Names in the tables of a tree -/

section Tables

variable {root : Node} {name : String}

/-- A name is declared as a variable or as a parameter. -/
theorem Form.declaredName?_eq_some_iff {form : Form} :
    form.declaredName? = some name ↔
      form.variableName? = some name ∨ form.parameterName? = some name := by
  cases form <;> simp [declaredName?, variableName?, parameterName?]

theorem Form.mentionedName?_eq_some_iff {form : Form} :
    form.mentionedName? = some name ↔ form = .identifier name := by
  cases form <;> simp [mentionedName?]

theorem Form.functionName?_eq_some_iff {form : Form} :
    form.functionName? = some name ↔ form = .functionDeclaration name := by
  cases form <;> simp [functionName?]

/-- The tables know a name as declared just if some node of the tree declares it. -/
theorem Symbols.isDeclared_iff :
    (ofTree root).isDeclared name = true ↔ ∃ m, root.Has m ∧ m.form.declaredName? = some name := by
  simp only [isDeclared, Bool.or_eq_true, keeps_vars.contains_iff, keeps_parameters.contains_iff,
    Form.declaredName?_eq_some_iff, and_or_left, exists_or]

/-- The tables know a name as mentioned just if some node of the tree mentions it. -/
theorem Symbols.isReferenced_iff :
    (ofTree root).isReferenced name = true ↔ ∃ m, root.Has m ∧ m.form = .identifier name := by
  simp only [isReferenced, keeps_identifiers.contains_iff, Form.mentionedName?_eq_some_iff]

/-- The function of a name is the last one that is declared with it. -/
theorem Symbols.function?_eq_some_iff {f : Node} :
    (ofTree root).function? name = some f ↔
      root.IsLast (fun m => m.form = .functionDeclaration name) f := by
  simp only [function?, keeps_functions.getElem?_eq_some_iff, Form.functionName?_eq_some_iff]

/-- A function is a variable too. -/
theorem Symbols.contains_vars_of_functions
    (h : (ofTree root).functions.contains name = true) :
    (ofTree root).vars.contains name = true := by
  obtain ⟨n, hn, hname⟩ := keeps_functions.contains_iff.1 h
  refine keeps_vars.contains_iff.2 ⟨n, hn, ?_⟩
  rw [Form.functionName?_eq_some_iff.1 hname]
  rfl

end Tables

/-! ## When the rules are silent -/

namespace Rule

variable {root : Node}

/-- Every name that is mentioned is declared somewhere. -/
theorem unknownIdentifier_silent_iff :
    unknownIdentifier.Silent (.ofTree root) root ↔
      ∀ n name, root.Has n → n.form = .identifier name →
        ∃ m, root.Has m ∧ m.form.declaredName? = some name := by
  simp only [silent_iff, ← Symbols.isDeclared_iff]
  constructor
  · rintro hsilent n name ⟨path, hn⟩ hform
    have hcheck := hsilent path n hn (by rw [Node.type, hform]; rfl)
    simp only [unknownIdentifier, hform] at hcheck
    by_contra hdeclared
    rw [if_neg hdeclared] at hcheck
    cases hcheck
  · intro hdeclared path n hn _
    unfold unknownIdentifier
    dsimp only
    split
    · next name hform => rw [if_pos (hdeclared n name ⟨path, hn⟩ hform)]
    · rfl

/-- The names of a table that are not mentioned. -/
theorem exists_mem_unreferenced_iff {symbols : Symbols} {table : NameTable} {name : String} :
    (∃ n, (name, n) ∈ unreferenced symbols table) ↔
      table.contains name = true ∧ symbols.isReferenced name = false := by
  simp only [unreferenced, List.mem_filter, Std.TreeMap.mem_toList_iff_getElem?_eq_some,
    Bool.not_eq_true', exists_and_right, Std.TreeMap.contains_eq_isSome_getElem?,
    Option.isSome_iff_exists]

/-- Nothing is left of a table just if all its names are mentioned. -/
theorem unreferenced_eq_nil_iff {symbols : Symbols} {table : NameTable} :
    unreferenced symbols table = [] ↔
      ∀ name, table.contains name = true → symbols.isReferenced name = true := by
  rw [List.eq_nil_iff_forall_not_mem, Prod.forall]
  simp only [← not_exists, exists_mem_unreferenced_iff, not_and, Bool.not_eq_false]

/-- The root of a script is a program, so the rule looks at the tables there. -/
theorem unusedIdentifier_silent_iff (hroot : root.form = .program) :
    unusedIdentifier.Silent (.ofTree root) root ↔
      ∀ n name, root.Has n → n.form.variableName? = some name →
        ∃ m, root.Has m ∧ m.form = .identifier name := by
  have hvars : (∀ name, (Symbols.ofTree root).vars.contains name = true →
        (Symbols.ofTree root).isReferenced name = true) ↔
      ∀ n name, root.Has n → n.form.variableName? = some name →
        ∃ m, root.Has m ∧ m.form = .identifier name := by
    simp only [Symbols.keeps_vars.contains_iff, Symbols.isReferenced_iff]
    exact ⟨fun h n name hn hname => h name ⟨n, hn, hname⟩,
      fun h name ⟨n, hn, hname⟩ => h n name hn hname⟩
  rw [silent_iff, ← hvars]
  constructor
  · intro hsilent name hname
    have hcheck := hsilent [] root rfl (by rw [Node.type, hroot]; rfl)
    simp only [unusedIdentifier, Except.ok.injEq, List.append_eq_nil_iff, List.map_eq_nil_iff]
      at hcheck
    obtain ⟨honlyVars, hfunctions⟩ := hcheck
    -- a name that some function has is reported as a function, any other as a variable
    by_cases hfunction : (Symbols.ofTree root).functions.contains name = true
    · exact unreferenced_eq_nil_iff.1 hfunctions name hfunction
    · by_contra hreferenced
      obtain ⟨n, hn⟩ := exists_mem_unreferenced_iff.2 ⟨hname, eq_false_of_ne_true hreferenced⟩
      refine List.filter_eq_nil_iff.1 honlyVars (name, n) hn ?_
      rw [eq_false_of_ne_true hfunction, Bool.not_false]
  · intro hreferenced path n _ _
    have hfunctions := unreferenced_eq_nil_iff.2 fun name hname =>
      hreferenced name (Symbols.contains_vars_of_functions hname)
    simp only [unusedIdentifier, unreferenced_eq_nil_iff.2 hreferenced, hfunctions,
      List.filter_nil, List.map_nil, List.append_nil]

/-- Where counts can be made, the rule compares them. -/
theorem wrongArgumentCount_silent_iff (hderived : root.Everywhere Node.Derived) :
    wrongArgumentCount.Silent (.ofTree root) root ↔
      ∀ call callee others name f, root.Has call → call.form = .callExpression →
        call.children = callee :: others → callee.form = .identifier name →
        root.IsLast (fun m => m.form = .functionDeclaration name) f →
        ∃ count, call.argumentCount? = some count ∧ f.parameterCount? = some count := by
  simp only [silent_iff, ← Symbols.function?_eq_some_iff]
  constructor
  · rintro hsilent call callee others name f ⟨path, hcall⟩ hform hchildren hcallee hf
    have hcheck := hsilent path call hcall (by rw [Node.type, hform]; rfl)
    obtain ⟨given, hgiven⟩ := (hderived.of_has ⟨path, hcall⟩).exists_argumentCount hform
    obtain ⟨fpath, hfpath, hfform, _⟩ := Symbols.function?_eq_some_iff.1 hf
    obtain ⟨expected, hexpected⟩ :=
      (hderived.of_has ⟨fpath, hfpath⟩).exists_parameterCount hfform
    simp only [wrongArgumentCount, hform, hchildren, List.head?_cons, Option.map_some, hcallee, hf,
      Option.bind_some, hexpected, hgiven] at hcheck
    by_cases heq : expected = given
    · exact ⟨given, hgiven, heq ▸ hexpected⟩
    · rw [if_neg heq] at hcheck
      cases hcheck
  · intro hcounted path call hcall _
    unfold wrongArgumentCount
    dsimp only
    split
    · next name hform hcallee =>
      split
      · next expected given hexpected hgiven =>
        obtain ⟨callee, hhead, hcallee⟩ := Option.map_eq_some_iff.1 hcallee
        obtain ⟨others, hchildren⟩ := List.head?_eq_some_iff.1 hhead
        obtain ⟨f, hf, hexpected⟩ := Option.bind_eq_some_iff.1 hexpected
        obtain ⟨count, hcount, hcount'⟩ :=
          hcounted call callee others name f ⟨path, hcall⟩ hform hchildren hcallee hf
        have heq : expected = given :=
          Option.some.inj ((hexpected.symm.trans hcount').trans (hcount.symm.trans hgiven))
        rw [if_pos heq]
      · rfl
    · rfl

/-- The rule about names is silent if no variable has a name that its pattern matches. -/
theorem naming_silent_iff {pattern : Pattern} :
    (naming pattern).Silent (.ofTree root) root ↔
      ∀ n name hasInit, root.Has n → n.form = .variableDefinition name hasInit →
        ¬ pattern.isMatch name = true := by
  rw [silent_iff]
  constructor
  · rintro hsilent n name hasInit ⟨path, hn⟩ hform hmatch
    have hcheck := hsilent path n hn (by rw [Node.type, hform]; rfl)
    simp only [naming, hform] at hcheck
    rw [if_pos hmatch] at hcheck
    cases hcheck
  · intro hnamed path n hn _
    unfold naming
    dsimp only
    split
    · next name hasInit hform => rw [if_neg (hnamed n name hasInit ⟨path, hn⟩ hform)]
    · rfl

/-- A context is in a function just if one of the nodes above is one. -/
theorem inFunction_contextAt_iff {path : List Nat} :
    (root.contextAt path).inFunction = true ↔
      ∃ above ∈ root.ancestors path,
        above.type = .functionDeclaration ∨ above.type = .functionExpression := by
  have hfunction (type : NodeType) : type.isFunction = true ↔
      type = .functionDeclaration ∨ type = .functionExpression := by
    cases type <;> simp [NodeType.isFunction]
  simp only [Node.contextAt, Context.inFunction, Context.ancestors_enterAll, Context.ancestors,
    List.append_nil, List.any_map, List.any_eq_true, Function.comp_apply, hfunction]

/-- Every `return` stands below a function. -/
theorem returnOutsideFunction_silent_iff :
    returnOutsideFunction.Silent (.ofTree root) root ↔
      ∀ path n, root.descend? path = some n → n.type = .returnStatement →
        ∃ above ∈ root.ancestors path,
          above.type = .functionDeclaration ∨ above.type = .functionExpression := by
  simp only [silent_iff, ← inFunction_contextAt_iff]
  constructor
  · intro hsilent path n hn htype
    have hcheck := hsilent path n hn htype.symm
    simp only [returnOutsideFunction] at hcheck
    by_contra houtside
    rw [if_neg houtside] at hcheck
    cases hcheck
  · intro hinside path n hn htype
    unfold returnOutsideFunction
    dsimp only
    rw [if_pos (hinside path n hn htype.symm)]

/-- The rules are silent about the clean trees of scripts. -/
theorem forall_builtin_silent_iff {engine : PatternEngine}
    (hengine : engine.FindsWord defaultNamePattern) (hroot : root.form = .program)
    (hderived : root.Everywhere Node.Derived) :
    (∀ rule ∈ builtin engine, rule.Silent (.ofTree root) root) ↔ Clean root := by
  obtain ⟨pattern, hpattern, -, hmatch⟩ := hengine.pattern_eq
  simp only [builtin, hpattern, Except.toOption, Option.toList_some, List.map_cons, List.map_nil,
    List.cons_append, List.nil_append, List.forall_mem_cons, unknownIdentifier_silent_iff,
    unusedIdentifier_silent_iff hroot, wrongArgumentCount_silent_iff hderived, naming_silent_iff,
    returnOutsideFunction_silent_iff, hmatch]
  constructor
  · rintro ⟨hdeclared, hmentioned, hcounted, hnamed, hinside, _⟩
    exact ⟨hdeclared, hmentioned, hcounted, hnamed, hinside⟩
  · rintro ⟨hdeclared, hmentioned, hcounted, hnamed, hinside⟩
    exact ⟨hdeclared, hmentioned, hcounted, hnamed, hinside, List.forall_mem_nil _⟩

end Rule

/-- There is no entry about characters without a token just if there are none. -/
theorem Linter.gapReport?_toList_eq_nil_iff {gaps : List Gap} :
    (gapReport? gaps).toList = [] ↔ gaps = [] := by
  cases gaps with
  | nil => simp [gapReport?]
  | cons gap gaps => simp [gapReport?]

/-- With an engine that finds words, the built-in rules report nothing on a script if and only if it
has no gaps, and a tree that is clean. The engine of regular expressions is one of these. -/
theorem builtin_analyze_eq_nil_iff (source : String) :
    (∀ engine : PatternEngine, engine.FindsWord Rule.defaultNamePattern →
      ((Linter.builtin engine).analyze source = [] ↔
        gapsOf source = [] ∧ ∃ root, parse source = .ok root ∧ Clean root)) ∧
    Regex.engine.FindsWord Rule.defaultNamePattern := by
  refine ⟨fun engine hengine => ?_, Regex.engine_findsWord⟩
  rw [Linter.analyze_eq]
  cases hparse : parse source with
  | error e => simp
  | ok root =>
    obtain ⟨hroot, hderived⟩ := derived_of_parse hparse
    simp only [List.append_eq_nil_iff, Linter.gapReport?_toList_eq_nil_iff, runRules_eq_nil_iff,
      Linter.builtin, Rule.forall_builtin_silent_iff hengine hroot hderived, Except.ok.injEq,
      exists_eq_left']

/-- A script that the built-in rules say nothing about. -/
theorem builtin_analyze_eq_nil_iff_call :
    (Linter.builtin Regex.engine).analyze "function f(a) \x7b return a \x7d\nf(1);" = [] ∧
      ∃ root, parse "function f(a) \x7b return a \x7d\nf(1);" = .ok root ∧ Clean root := by
  have hnil : (Linter.builtin Regex.engine).analyze
      "function f(a) \x7b return a \x7d\nf(1);" = [] := by
    decide +kernel
  obtain ⟨hiff, hfinds⟩ := builtin_analyze_eq_nil_iff "function f(a) \x7b return a \x7d\nf(1);"
  exact ⟨hnil, ((hiff _ hfinds).1 hnil).2⟩

end ScriptLint
