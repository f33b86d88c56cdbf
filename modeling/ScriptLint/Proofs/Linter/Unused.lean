import ScriptLint.Proofs.Grammar.WellFormed
import ScriptLint.Proofs.Linter.Clean
import ScriptLint.Proofs.Linter.Selection
import ScriptLint.Proofs.Tree.Preorder

/-!
# Unused declarations

What the built-in rules report about names that are declared and not mentioned, said of the tree
alone. The rule reads two tables: one has functions among the variables, and both keep the last
node for a name. So a name of a function is reported with its last declaration as a function,
whatever variables have the name too, and any other name with its last definition as a variable
(`Node.UnusedFunction`, `Node.UnusedVariable`).

The rule is aimed at programs, and the root of a script is the only one
(`runRules_program_rule`). A message can be read back: what follows the name has no quote in it
(`Rule.name_eq_of_unusedMessage`).

Main statement: `unused_reported_once`.
-/

namespace ScriptLint

/-! ## Unused names of a tree -/

namespace Node

/-- A name that a variable or a function is declared with and that nothing mentions. -/
def Unused (root : Node) (name : String) : Prop :=
  (∃ n, root.Has n ∧ n.Bears [.variableDefinition, .functionDeclaration] name) ∧
    ¬ ∃ n, root.Has n ∧ n.Bears [.identifier] name

/-- An unused name that no function has, and its last definition as a variable. -/
def UnusedVariable (root : Node) (name : String) (n : Node) : Prop :=
  root.Unused name ∧ (¬ ∃ f, root.Has f ∧ f.Bears [.functionDeclaration] name) ∧
    root.IsLast (Bears [.variableDefinition] name) n

/-- An unused name that a function has, and its last declaration as a function. -/
def UnusedFunction (root : Node) (name : String) (n : Node) : Prop :=
  root.Unused name ∧ root.IsLast (Bears [.functionDeclaration] name) n

variable {root n : Node} {P Q : Node → Prop} {name : String}

/-- What is the last of its kind in a tree is in the tree. -/
theorem IsLast.exists_has (h : root.IsLast P n) : ∃ n, root.Has n ∧ P n := by
  obtain ⟨path, hn, hP, -⟩ := h
  exact ⟨n, ⟨path, hn⟩, hP⟩

/-- What is the last depends only on what holds of the nodes of the tree. -/
theorem isLast_congr (h : ∀ m, root.Has m → (P m ↔ Q m)) : root.IsLast P n ↔ root.IsLast Q n := by
  unfold IsLast
  refine exists_congr fun path => and_congr_right fun hn => and_congr (h n ⟨path, hn⟩) ?_
  exact forall₃_congr fun path' m hm => imp_congr_left (h m ⟨path', hm⟩)

/-- Where no function has a name, the last node that declares it is a definition of a variable. -/
theorem isLast_variable_iff (h : ¬ ∃ f, root.Has f ∧ f.Bears [.functionDeclaration] name) :
    root.IsLast (Bears [.variableDefinition, .functionDeclaration] name) n ↔
      root.IsLast (Bears [.variableDefinition] name) n := by
  refine isLast_congr fun m hm => ⟨fun ⟨htype, hname⟩ => ?_, fun ⟨htype, hname⟩ => ?_⟩
  · obtain hvariable | hfunction := List.mem_cons.1 htype
    · exact ⟨List.mem_singleton.2 hvariable, hname⟩
    · exact absurd ⟨m, hm, hfunction, hname⟩ h
  · exact ⟨List.mem_cons.2 (.inl (List.mem_singleton.1 htype)), hname⟩

end Node

/-! ## Lists of declarations -/

/-- A list of the declarations of which `P` holds, in ascending order of their names. -/
structure ByName (P : String → Node → Prop) (entries : List (String × Node)) : Prop where
  ascending : entries.Pairwise fun entry entry' => Name.Before entry.1 entry'.1
  complete : ∀ name n, (name, n) ∈ entries ↔ P name n

theorem Name.Before.ne {name other : String} (h : Before name other) : name ≠ other := by
  rintro rfl
  have hself : compare name name = .eq := Std.ReflCmp.compare_self
  rw [before_iff, hself] at h
  cases h

namespace ByName

variable {P Q : String → Node → Prop} {entries : List (String × Node)}

/-- Declarations that are chosen by their names. -/
theorem filter (h : ByName P entries) {R : String → Prop} (keep : String → Bool)
    (hkeep : ∀ name, keep name = true ↔ R name) :
    ByName (fun name n => P name n ∧ R name) (entries.filter fun entry => keep entry.1) where
  ascending := h.ascending.filter _
  complete name n := by rw [List.mem_filter, h.complete, hkeep]

/-- A list by names is one of any condition that holds of the same nodes. -/
theorem congr (h : ByName P entries) (hPQ : ∀ name n, P name n ↔ Q name n) :
    ByName Q entries where
  ascending := h.ascending
  complete name n := (h.complete name n).trans (hPQ name n)

/-- No name is listed twice. -/
theorem pairwise_ne (h : ByName P entries) :
    entries.Pairwise fun entry entry' => entry.1 ≠ entry'.1 :=
  h.ascending.imp Name.Before.ne

/-- A name is listed just if some node meets the condition for it. -/
theorem mem_names_iff (h : ByName P entries) {name : String} :
    name ∈ entries.map Prod.fst ↔ ∃ n, P name n := by
  simp only [List.mem_map, Prod.exists, exists_and_right, exists_eq_right, h.complete]

end ByName

namespace Symbols

variable {table : NameTable} {root : Node} {types : List NodeType}

/-- A table lists for each name the last node that bears it, in the order of names. -/
theorem Tabulates.byName (h : Tabulates table root types) :
    ByName (fun name n => root.IsLast (Node.Bears types name) n) table.toList where
  ascending := h.ascending
  complete name n := (h.listed name n).trans (h.last name n)

/-- A name that some node bears has a last node. -/
theorem Tabulates.exists_last (h : Tabulates table root types) {name : String}
    (hname : ∃ n, root.Has n ∧ n.Bears types name) :
    ∃ n, root.IsLast (Node.Bears types name) n := by
  cases hn : table[name]? with
  | none => exact absurd hname ((h.absent name).1 hn)
  | some n => exact ⟨n, (h.last name n).1 hn⟩

theorem tabulates_vars (root : Node) :
    Tabulates (ofTree root).vars root [.variableDefinition, .functionDeclaration] :=
  keeps_vars.tabulates (fun _ _ => Form.variableName?_eq_some_iff_type) root

theorem tabulates_functions (root : Node) :
    Tabulates (ofTree root).functions root [.functionDeclaration] :=
  keeps_functions.tabulates (fun _ _ => Form.functionName?_eq_some_iff_type) root

theorem tabulates_identifiers (root : Node) :
    Tabulates (ofTree root).identifiers root [.identifier] :=
  keeps_identifiers.tabulates (fun _ _ => Form.mentionedName?_eq_some_iff_type) root

end Symbols

namespace Rule

variable {root : Node}

/-- The variables of a tree that the rule reports. -/
def unusedVars (root : Node) : List (String × Node) :=
  (unreferenced (.ofTree root) (Symbols.ofTree root).vars).filter fun entry =>
    !(Symbols.ofTree root).functions.contains entry.1

/-- The functions of a tree that the rule reports. -/
def unusedFunctions (root : Node) : List (String × Node) :=
  unreferenced (.ofTree root) (Symbols.ofTree root).functions

/-- The entries of a table that nothing mentions, still in the order of names. -/
theorem unreferenced_byName {table : NameTable} {types : List NodeType}
    (h : Symbols.Tabulates table root types) :
    ByName (fun name n => root.IsLast (Node.Bears types name) n ∧
      ¬ ∃ m, root.Has m ∧ m.Bears [.identifier] name) (unreferenced (.ofTree root) table) := by
  refine h.byName.filter (fun name => !(Symbols.ofTree root).isReferenced name) fun name => ?_
  rw [Bool.not_eq_true', ← Bool.not_eq_true]
  exact not_congr ((Symbols.tabulates_identifiers root).contains_iff name)

/-- The functions that are reported are those that nothing mentions. -/
theorem unusedFunctions_byName (root : Node) :
    ByName root.UnusedFunction (unusedFunctions root) := by
  refine (unreferenced_byName (Symbols.tabulates_functions root)).congr fun name n => ?_
  constructor
  · rintro ⟨hlast, hmentioned⟩
    obtain ⟨f, hf, htype, hname⟩ := hlast.exists_has
    exact ⟨⟨⟨f, hf, List.mem_cons_of_mem _ htype, hname⟩, hmentioned⟩, hlast⟩
  · rintro ⟨⟨-, hmentioned⟩, hlast⟩
    exact ⟨hlast, hmentioned⟩

/-- The variables that are reported are those that nothing mentions and that are no functions. -/
theorem unusedVars_byName (root : Node) : ByName root.UnusedVariable (unusedVars root) := by
  have hkeep (name : String) : (!(Symbols.ofTree root).functions.contains name) = true ↔
      ¬ ∃ f, root.Has f ∧ f.Bears [.functionDeclaration] name := by
    rw [Bool.not_eq_true', ← Bool.not_eq_true]
    exact not_congr ((Symbols.tabulates_functions root).contains_iff name)
  refine ((unreferenced_byName (Symbols.tabulates_vars root)).filter _ hkeep).congr fun name n => ?_
  constructor
  · rintro ⟨⟨hlast, hmentioned⟩, hfunction⟩
    exact ⟨⟨hlast.exists_has, hmentioned⟩, hfunction, (Node.isLast_variable_iff hfunction).1 hlast⟩
  · rintro ⟨⟨-, hmentioned⟩, hfunction, hlast⟩
    exact ⟨⟨(Node.isLast_variable_iff hfunction).2 hlast, hmentioned⟩, hfunction⟩

/-- No name is reported twice, not even once as a variable and once as a function. -/
theorem unused_names_nodup (root : Node) :
    ((unusedVars root ++ unusedFunctions root).map Prod.fst).Nodup := by
  refine List.pairwise_map.2 (List.pairwise_append.2 ⟨(unusedVars_byName root).pairwise_ne,
    (unusedFunctions_byName root).pairwise_ne, ?_⟩)
  rintro ⟨name, n⟩ hvar ⟨_, f⟩ hfunction rfl
  obtain ⟨-, hno, -⟩ := ((unusedVars_byName root).complete name n).1 hvar
  obtain ⟨-, hlast⟩ := ((unusedFunctions_byName root).complete name f).1 hfunction
  exact hno hlast.exists_has

/-- The names that are reported are the unused ones. -/
theorem mem_unused_names_iff {name : String} :
    name ∈ (unusedVars root ++ unusedFunctions root).map Prod.fst ↔ root.Unused name := by
  rw [List.map_append, List.mem_append, (unusedVars_byName root).mem_names_iff,
    (unusedFunctions_byName root).mem_names_iff]
  constructor
  · rintro (⟨n, hunused, -⟩ | ⟨n, hunused, -⟩)
    · exact hunused
    · exact hunused
  · intro hunused
    by_cases hfunction : ∃ f, root.Has f ∧ f.Bears [.functionDeclaration] name
    · obtain ⟨n, hlast⟩ := (Symbols.tabulates_functions root).exists_last hfunction
      exact .inr ⟨n, hunused, hlast⟩
    · obtain ⟨n, hlast⟩ := (Symbols.tabulates_vars root).exists_last hunused.1
      exact .inl ⟨n, hunused, hfunction, (Node.isLast_variable_iff hfunction).1 hlast⟩

end Rule

/-! ## Messages -/

/-- What stands before the last occurrence of a character is determined. -/
theorem eq_of_append_cons_eq {c : Char} {w v t u : List Char} (ht : c ∉ t) (hu : c ∉ u)
    (h : w ++ c :: t = v ++ c :: u) : w = v := by
  have hdrop {w t : List Char} (ht : c ∉ t) :
      (w ++ c :: t).reverse.dropWhile (· ≠ c) = c :: w.reverse := by
    have hother : ∀ d ∈ t.reverse, decide (d ≠ c) = true := fun d hd =>
      decide_eq_true fun heq => ht (heq ▸ List.mem_reverse.1 hd)
    rw [List.reverse_append, List.reverse_cons, List.append_assoc, List.singleton_append,
      List.dropWhile_append_of_pos hother, List.dropWhile_cons_of_neg (by simp)]
  have hsame := hdrop (w := w) ht
  rw [h, hdrop hu] at hsame
  exact (List.reverse_injective (List.cons.inj hsame).2).symm

/-- A place is written without quotation marks. -/
theorem Position.quote_notMem_render (p : Position) : '\'' ∉ p.render.toList := by
  have hdigits (n : Nat) : '\'' ∉ (toString n).toList := by
    intro hmem
    have hdigit := Nat.isDigit_of_mem_toDigits (by decide) (by decide)
      (show '\'' ∈ Nat.toDigits 10 n by simpa using hmem)
    cases hdigit
  rw [render, String.toList_append, String.toList_append, List.mem_append, List.mem_append]
  rintro ((hline | hcolon) | hcolumn)
  · exact hdigits _ hline
  · revert hcolon
    decide
  · exact hdigits _ hcolumn

/-- The name is read back from a message. -/
theorem Rule.name_eq_of_unusedMessage {what : String} {entry entry' : String × Node}
    (h : unusedMessage what entry = unusedMessage what entry') : entry.1 = entry'.1 := by
  have hquote (p : Position) : '\'' ∉ " at (".toList ++ (p.render.toList ++ ").".toList) := by
    rw [List.mem_append, List.mem_append]
    rintro (hopen | hposition | hclose)
    · revert hopen
      decide
    · exact p.quote_notMem_render hposition
    · revert hclose
      decide
  have hlist := congrArg String.toList h
  simp only [unusedMessage, String.toList_append, List.append_assoc] at hlist
  have hname := List.append_cancel_left (List.append_cancel_left (List.append_cancel_left hlist))
  exact String.toList_injective (eq_of_append_cons_eq (hquote _) (hquote _) hname)

/-- Different names make different messages. -/
theorem ByName.messages_nodup {P : String → Node → Prop} {entries : List (String × Node)}
    (h : ByName P entries) (what : String) : (entries.map (Rule.unusedMessage what)).Nodup :=
  List.pairwise_map.2 (h.pairwise_ne.imp fun hne heq => hne (Rule.name_eq_of_unusedMessage heq))

namespace Rule

/-- The messages about unused names. -/
def unusedMessages (root : Node) : List String :=
  (unusedVars root).map (unusedMessage "var") ++
    (unusedFunctions root).map (unusedMessage "function")

/-- No message is repeated, also not between functions and variables. -/
theorem unusedMessages_nodup (root : Node) : (unusedMessages root).Nodup := by
  refine List.pairwise_append.2 ⟨(unusedVars_byName root).messages_nodup "var",
    (unusedFunctions_byName root).messages_nodup "function", ?_⟩
  rintro _ hvar _ hfunction heq
  obtain ⟨entry, -, rfl⟩ := List.mem_map.1 hvar
  obtain ⟨entry', -, rfl⟩ := List.mem_map.1 hfunction
  have hlist := congrArg String.toList heq
  simp only [unusedMessage, String.toList_append, List.append_assoc] at hlist
  -- the word behind the first one tells the two kinds of messages apart
  have hwhat := congrArg List.head? (List.append_cancel_left hlist)
  exact absurd hwhat (by simp)

/-- There are messages just if something is unused. -/
theorem unusedMessages_eq_nil_iff (root : Node) :
    unusedMessages root = [] ↔ ¬ ∃ name, root.Unused name := by
  simp only [← mem_unused_names_iff]
  rw [← List.eq_nil_iff_forall_not_mem.trans not_exists.symm, List.map_eq_nil_iff, unusedMessages,
    List.append_eq_nil_iff, List.append_eq_nil_iff, List.map_eq_nil_iff, List.map_eq_nil_iff]

end Rule

/-! ## The entry -/

/-- A walk visits only nodes of the tree. -/
theorem Node.has_of_mem_walkIn {n : Node} {context : Context} {visit : Visit}
    (h : visit ∈ n.walkIn context) : n.Has visit.node := by
  rw [← n.map_sitesIn] at h
  obtain ⟨⟨path, _⟩, hsite, rfl⟩ := List.mem_map.1 h
  obtain ⟨m, hm, rfl⟩ := mem_sitesIn_iff.1 hsite
  exact ⟨path, hm⟩

/-- Only a program has the type of one. -/
theorem Form.eq_program_of_type {form : Form} (h : form.type = .program) : form = .program := by
  cases form
  case program => rfl
  all_goals cases h

/-- A rule that is aimed at programs looks at the root of a script and at no other node. -/
theorem runRules_program_rule {root : Node} {rule : Rule} (h : root.Everywhere Node.WellFormed)
    (htarget : rule.target = .program) (symbols : Symbols) :
    runRules root symbols [rule] = (rule.reportAt? symbols ⟨root, .root⟩).toList := by
  have hwalk : root.walk =
      ⟨root, .root⟩ :: walkAll (Context.root.enter root.type) root.children := by
    cases root
    rw [Node.walk, Node.walkIn]
    rfl
  have hbelow : ∀ visit ∈ walkAll (Context.root.enter root.type) root.children,
      [rule].filterMap (·.reportAt? symbols visit) = [] := by
    intro visit hvisit
    obtain ⟨child, hchild, hvisit⟩ := mem_walkAll_iff.1 hvisit
    cases h with
    | intro hroot hchildren =>
      have hother := ((hchildren child hchild).ne_program
        (hroot.form_ne_program hchild)).of_has (Node.has_of_mem_walkIn hvisit)
      have hnone : rule.reportAt? symbols visit = none :=
        if_neg fun heq => hother (Form.eq_program_of_type (heq.symm.trans htarget))
      simp [hnone]
  rw [runRules, hwalk, List.flatMap_cons, List.flatMap_eq_nil_iff.2 hbelow, List.append_nil]
  cases hreport : rule.reportAt? symbols ⟨root, .root⟩ <;> simp [hreport]

/-- At the root the rule makes one entry with all its messages, or none if there are none. -/
theorem Rule.reportAt?_unusedIdentifier {root : Node} (hroot : root.form = .program) :
    unusedIdentifier.reportAt? (.ofTree root) ⟨root, .root⟩ =
      if unusedMessages root = [] then none
      else some (.findings "Unused identifier" (unusedMessages root)) := by
  have htarget : unusedIdentifier.target = (Visit.mk root .root).node.type := by
    show NodeType.program = root.form.type
    rw [hroot]
    rfl
  have hmessages : unusedIdentifier.messagesAt (.ofTree root) ⟨root, .root⟩ = unusedMessages root :=
    rfl
  rw [reportAt?, if_pos htarget, hmessages]
  cases unusedMessages root with
  | nil => rfl
  | cons message messages => rfl

/-- Just one of the built-in rules has this name. -/
theorem Rule.builtin_filter_unused (engine : PatternEngine) :
    ((builtin engine).filter fun rule => rule.name = "Unused identifier") =
      [unusedIdentifier] := by
  rw [builtin]
  cases engine.pattern defaultNamePattern <;> rfl

/-- The entry about characters without a token bears no such name. -/
theorem Linter.filter_gapReport?_unused (gaps : List Gap) :
    ((gapReport? gaps).toList.filter fun report => report.checker? = some "Unused identifier") =
      [] := by
  cases gaps with
  | nil => rfl
  | cons gap gaps => rfl

/-- The entries of the rule in the report on a script that has a tree. -/
theorem Linter.filter_analyze_unused (engine : PatternEngine) {source : String} {root : Node}
    (h : parse source = .ok root) :
    (((builtin engine).analyze source).filter fun report =>
        report.checker? = some "Unused identifier") =
      if Rule.unusedMessages root = [] then []
      else [.findings "Unused identifier" (Rule.unusedMessages root)] := by
  obtain ⟨hroot, hderived⟩ := derived_of_parse h
  have hrules := runRules_filter (fun report => report.checker? = some "Unused identifier")
    (fun name => name = "Unused identifier")
    (fun report name hname => by simp only [hname, Option.some.injEq]) root (.ofTree root)
    (Rule.builtin engine)
  rw [analyze_eq, h]
  dsimp only
  rw [List.filter_append, filter_gapReport?_unused, List.nil_append, builtin, ← hrules,
    Rule.builtin_filter_unused engine,
    runRules_program_rule (hderived.imp fun _ hn => hn.wellFormed) rfl,
    Rule.reportAt?_unusedIdentifier hroot]
  split
  · rfl
  · rfl

/-- The report on a script that has a tree has one entry about unused declarations if some name is
unused, and none otherwise. Each unused name has one message: first, in ascending order, the names
that no function has, with the place of their last definition as a variable, and then, in ascending
order, the names of functions, with the place of their last declaration as a function. -/
theorem unused_reported_once (engine : PatternEngine) {source : String} {root : Node}
    (h : parse source = .ok root) :
    ∃ vars functions : List (String × Node),
      ByName root.UnusedVariable vars ∧ ByName root.UnusedFunction functions ∧
      ((vars ++ functions).map Prod.fst).Nodup ∧
      (∀ name, name ∈ (vars ++ functions).map Prod.fst ↔ root.Unused name) ∧
      let messages :=
        vars.map (fun entry =>
          "Unused var: '" ++ entry.1 ++ "' at (" ++ entry.2.start.render ++ ").") ++
        functions.map (fun entry =>
          "Unused function: '" ++ entry.1 ++ "' at (" ++ entry.2.start.render ++ ").")
      let entries := ((Linter.builtin engine).analyze source).filter fun report =>
        report.checker? = some "Unused identifier"
      messages.Nodup ∧
      ((∃ name, root.Unused name) → entries = [.findings "Unused identifier" messages]) ∧
      ((¬ ∃ name, root.Unused name) → entries = []) := by
  refine ⟨Rule.unusedVars root, Rule.unusedFunctions root, Rule.unusedVars_byName root,
    Rule.unusedFunctions_byName root, Rule.unused_names_nodup root,
    fun name => Rule.mem_unused_names_iff, Rule.unusedMessages_nodup root, fun hsome => ?_,
    fun hnone => ?_⟩
  · have hmessages := mt (Rule.unusedMessages_eq_nil_iff root).1 (not_not_intro hsome)
    rw [Linter.filter_analyze_unused engine h, if_neg hmessages]
    rfl
  · have hmessages := (Rule.unusedMessages_eq_nil_iff root).2 hnone
    rw [Linter.filter_analyze_unused engine h, if_pos hmessages]

/-- A function whose name a variable takes later, a variable that is used and one that is not. -/
theorem unused_reported_once_redeclared :
    ∃ root vars functions, parse "function f() \x7b\x7d\nvar f, z, b; b" = .ok root ∧
      ByName root.UnusedVariable vars ∧ ByName root.UnusedFunction functions ∧
      vars.map (fun entry =>
          "Unused var: '" ++ entry.1 ++ "' at (" ++ entry.2.start.render ++ ").") ++
        functions.map (fun entry =>
          "Unused function: '" ++ entry.1 ++ "' at (" ++ entry.2.start.render ++ ").") =
      ["Unused var: 'z' at (2:7).", "Unused function: 'f' at (1:0)."] := by
  obtain ⟨root, hroot⟩ := exists_tree
    (show (parseTokens (tokenize "function f() \x7b\x7d\nvar f, z, b; b")).isOk = true by
      decide +kernel)
  have hentries : (((Linter.builtin Regex.engine).analyze
      "function f() \x7b\x7d\nvar f, z, b; b").filter fun report =>
        report.checker? = some "Unused identifier") = [.findings "Unused identifier"
          ["Unused var: 'z' at (2:7).", "Unused function: 'f' at (1:0)."]] := by
    decide +kernel
  obtain ⟨vars, functions, hvars, hfunctions, -, -, -, hsome, hnone⟩ :=
    unused_reported_once Regex.engine hroot
  refine ⟨root, vars, functions, hroot, hvars, hfunctions, ?_⟩
  by_cases hunused : ∃ name, root.Unused name
  · have hone := hentries.symm.trans (hsome hunused)
    injection hone with hreport
    injection hreport with _ hmessages
    exact hmessages.symm
  · have hempty := hentries.symm.trans (hnone hunused)
    cases hempty

end ScriptLint
