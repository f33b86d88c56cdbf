import ScriptLint.Proofs.Tree.Paths
import ScriptLint.Rule.Basic

/-!
# The entries of rules

What a run of rules reports, said of pairs: an entry belongs to a node, given by its path, and to a
rule, given by its number. `Entry.Due` says which pairs have an entry and what it is, and
`Listing` that a list has just these entries, by nodes in pre-order and at a node by rules.

Main statement: `runRules_listed`. A run of rules gives such a list, and a rule that is added
anywhere adds entries of its own and leaves the others as they are.
-/

namespace ScriptLint

/-- What a rule says about a node: the messages of its check, or that the check failed and why. -/
inductive Rule.Says (rule : Rule) (symbols : Symbols) (n : Node) (context : Context) :
    List String → Prop where
  | checked {messages : List String} :
      rule.check n symbols context = .ok messages → rule.Says symbols n context messages
  | failed {breakdown : Breakdown} :
      rule.check n symbols context = .error breakdown →
      rule.Says symbols n context ["Rule '" ++ rule.name ++ "' failed: " ++ breakdown.reason]

/-- An entry of a report, with the path of its node and the number of its rule. -/
structure Entry where
  path : List Nat
  rule : Nat
  report : Report
deriving DecidableEq, Repr

namespace Entry

/-- `e.Due root symbols rules` says that `e` is the entry of a rule for a node that it is aimed at
and about which it says something. -/
inductive Due (root : Node) (symbols : Symbols) (rules : List Rule) : Entry → Prop where
  | intro {path : List Nat} {number : Nat} {n : Node} {rule : Rule} {messages : List String} :
      root.descend? path = some n → rules[number]? = some rule → rule.target = n.type →
      rule.Says symbols n (root.contextAt path) messages → messages ≠ [] →
      Due root symbols rules ⟨path, number, .findings rule.name messages⟩

/-- One entry stands before another if its node does or, at one node, its rule does. -/
def Precedes (e f : Entry) : Prop :=
  Path.Before e.path f.path ∨ e.path = f.path ∧ e.rule < f.rule

end Entry

/-- A list of all entries of some rules for a tree, in order. None of them is there twice. -/
structure Listing (root : Node) (symbols : Symbols) (rules : List Rule) (entries : List Entry) :
    Prop where
  ordered : entries.Pairwise Entry.Precedes
  complete : ∀ e, e ∈ entries ↔ e.Due root symbols rules

/-! ## What one rule says about one node -/

namespace Rule

variable {rule : Rule} {symbols : Symbols} {n : Node} {context : Context}

/-- What a rule says about a node is what its check comes to. -/
theorem says_iff {messages : List String} :
    rule.Says symbols n context messages ↔ rule.messagesAt symbols ⟨n, context⟩ = messages := by
  unfold messagesAt
  constructor
  · rintro (hcheck | hcheck)
    · rw [hcheck]
    · rw [hcheck]
  · rintro rfl
    split
    · next messages hcheck => exact .checked hcheck
    · next breakdown hcheck => exact .failed hcheck

/-- A rule has nothing to say about a node if its check gives no messages. -/
theorem says_nil_iff :
    rule.Says symbols n context [] ↔ rule.check n symbols context = .ok [] := by
  constructor
  · intro hsays
    cases hsays with
    | checked hcheck => exact hcheck
  · exact .checked

/-- A rule makes an entry for a node of its type if it has something to say about it. -/
theorem reportAt?_eq_some_iff {report : Report} :
    rule.reportAt? symbols ⟨n, context⟩ = some report ↔
      rule.target = n.type ∧ ∃ messages, rule.Says symbols n context messages ∧ messages ≠ [] ∧
        report = .findings rule.name messages := by
  simp only [says_iff, exists_eq_left']
  by_cases htarget : rule.target = n.type
  · rw [reportAt?, if_pos (show rule.target = (Visit.mk n context).node.type from htarget)]
    cases rule.messagesAt symbols ⟨n, context⟩ with
    | nil => simp
    | cons message messages => simp [htarget, eq_comm (a := report)]
  · rw [reportAt?, if_neg (show ¬ rule.target = (Visit.mk n context).node.type from htarget)]
    simp [htarget]

end Rule

/-! ## The entries of a run -/

/-- The entries of numbered rules at a site. -/
def entriesAt (symbols : Symbols) (numbered : List (Rule × Nat)) (site : List Nat × Visit) :
    List Entry :=
  numbered.filterMap fun rule => (rule.1.reportAt? symbols site.2).map (⟨site.1, rule.2, ·⟩)

/-- The entries of rules for a tree. -/
def entriesOf (root : Node) (symbols : Symbols) (rules : List Rule) : List Entry :=
  root.sites.flatMap (entriesAt symbols rules.zipIdx)

section Entries

variable {symbols : Symbols} {numbered : List (Rule × Nat)} {site : List Nat × Visit} {e : Entry}

/-- The entries at a site are those of the rules that make one there. -/
theorem mem_entriesAt_iff :
    e ∈ entriesAt symbols numbered site ↔
      ∃ rule, (rule, e.rule) ∈ numbered ∧ e.path = site.1 ∧
        rule.reportAt? symbols site.2 = some e.report := by
  obtain ⟨path, number, report⟩ := e
  simp only [entriesAt, List.mem_filterMap, Option.map_eq_some_iff, Entry.mk.injEq]
  constructor
  · rintro ⟨⟨rule, _⟩, hmem, _, hreport, rfl, rfl, rfl⟩
    exact ⟨rule, hmem, rfl, hreport⟩
  · rintro ⟨rule, hmem, rfl, hreport⟩
    exact ⟨(rule, number), hmem, report, hreport, rfl, rfl, rfl⟩

/-- The entries of a run are exactly those that are due. -/
theorem mem_entriesOf_iff {root : Node} {rules : List Rule} :
    e ∈ entriesOf root symbols rules ↔ e.Due root symbols rules := by
  rw [entriesOf, List.mem_flatMap]
  constructor
  · rintro ⟨⟨path, visit⟩, hsite, hmem⟩
    obtain ⟨n, hn, rfl⟩ := Node.mem_sites_iff.1 hsite
    obtain ⟨rule, hrule, hpath, hreport⟩ := mem_entriesAt_iff.1 hmem
    obtain ⟨htarget, messages, hsays, hne, hreport⟩ := Rule.reportAt?_eq_some_iff.1 hreport
    obtain ⟨_, number, _⟩ := e
    cases hpath
    cases hreport
    exact .intro hn (List.mem_zipIdx_iff_getElem?.1 hrule) htarget hsays hne
  · rintro @⟨path, number, n, rule, messages, hn, hrule, htarget, hsays, hne⟩
    have hreport := Rule.reportAt?_eq_some_iff.2 ⟨htarget, messages, hsays, hne, rfl⟩
    refine ⟨_, Node.mem_sites_iff.2 ⟨n, hn, rfl⟩, mem_entriesAt_iff.2 ⟨rule, ?_, rfl, hreport⟩⟩
    exact List.mem_zipIdx_iff_getElem?.2 hrule

/-- The entries at one site are in the order of the rules. -/
theorem entriesAt_ordered (hnumbered : numbered.Pairwise fun a b => a.2 < b.2) :
    (entriesAt symbols numbered site).Pairwise Entry.Precedes := by
  refine List.pairwise_filterMap.2 (hnumbered.imp fun hlt e he f hf => ?_)
  obtain ⟨_, _, rfl⟩ := Option.map_eq_some_iff.1 he
  obtain ⟨_, _, rfl⟩ := Option.map_eq_some_iff.1 hf
  exact .inr ⟨rfl, hlt⟩

/-- The entries of a run are in the order of the walk, and at one node in the order of the rules. -/
theorem entriesOf_ordered (root : Node) (symbols : Symbols) (rules : List Rule) :
    (entriesOf root symbols rules).Pairwise Entry.Precedes := by
  have hnumbered : rules.zipIdx.Pairwise fun a b => a.2 < b.2 := by
    rw [← List.pairwise_map, List.zipIdx_map_snd]
    exact List.pairwise_lt_range' 1
  refine List.pairwise_flatMap.2 ⟨fun site _ => entriesAt_ordered hnumbered, ?_⟩
  refine root.sites_ascending.imp fun hlt e he f hf => ?_
  obtain ⟨_, _, hepath, _⟩ := mem_entriesAt_iff.1 he
  obtain ⟨_, _, hfpath, _⟩ := mem_entriesAt_iff.1 hf
  exact .inl (by rwa [hepath, hfpath])

/-- The entries of a run list what is due, in order. -/
theorem entriesOf_listing (root : Node) (symbols : Symbols) (rules : List Rule) :
    Listing root symbols rules (entriesOf root symbols rules) :=
  ⟨entriesOf_ordered root symbols rules, fun _ => mem_entriesOf_iff⟩

/-! ## Entries of some of the rules -/

/-- The entries that are left if those of some rules are deleted are the entries of the others. -/
theorem filter_entriesAt (p : Nat → Bool) :
    (entriesAt symbols numbered site).filter (fun e => p e.rule) =
      entriesAt symbols (numbered.filter fun rule => p rule.2) site := by
  rw [entriesAt, entriesAt, List.filter_filterMap, List.filterMap_filter]
  congr 1
  funext rule
  cases rule.1.reportAt? symbols site.2 <;> simp [Option.filter]

/-- At one site the run reports what the entries there hold. -/
theorem map_report_entriesAt :
    (entriesAt symbols numbered site).map Entry.report =
      (numbered.map Prod.fst).filterMap fun rule => rule.reportAt? symbols site.2 := by
  rw [entriesAt, List.map_filterMap, List.filterMap_map]
  congr 1
  funext rule
  cases hreport : rule.1.reportAt? symbols site.2 <;> simp [hreport]

/-- A run of some of the rules reports the entries of these rules. -/
theorem map_report_filter (root : Node) (symbols : Symbols) (rules : List Rule) (p : Nat → Bool) :
    ((entriesOf root symbols rules).filter fun e => p e.rule).map Entry.report =
      runRules root symbols ((rules.zipIdx.filter fun rule => p rule.2).map Prod.fst) := by
  rw [entriesOf, List.filter_flatMap, List.map_flatMap, runRules, ← root.map_sites,
    List.flatMap_map]
  congr 1
  funext site
  rw [filter_entriesAt, map_report_entriesAt]

/-- A run reports what its entries hold. -/
theorem map_report_entriesOf (root : Node) (symbols : Symbols) (rules : List Rule) :
    (entriesOf root symbols rules).map Entry.report = runRules root symbols rules := by
  have h := map_report_filter root symbols rules fun _ => true
  rwa [List.filter_eq_self.2 fun _ _ => rfl, List.filter_eq_self.2 fun _ _ => rfl,
    List.zipIdx_map_fst] at h

end Entries

/-! ## No entries -/

/-- `rule.Silent symbols root` says that a rule has nothing to say about the nodes of a tree that it
is aimed at. -/
def Rule.Silent (rule : Rule) (symbols : Symbols) (root : Node) : Prop :=
  ∀ path n, root.descend? path = some n → rule.target = n.type →
    rule.Says symbols n (root.contextAt path) []

/-- A rule is silent if its check finds nothing at any node of its type. -/
theorem Rule.silent_iff {rule : Rule} {symbols : Symbols} {root : Node} :
    rule.Silent symbols root ↔
      ∀ path n, root.descend? path = some n → rule.target = n.type →
        rule.check n symbols (root.contextAt path) = .ok [] := by
  simp only [Silent, says_nil_iff]

/-- A run of rules reports nothing if none of the rules has something to say. -/
theorem runRules_eq_nil_iff {root : Node} {symbols : Symbols} {rules : List Rule} :
    runRules root symbols rules = [] ↔ ∀ rule ∈ rules, rule.Silent symbols root := by
  rw [← map_report_entriesOf, List.map_eq_nil_iff, List.eq_nil_iff_forall_not_mem]
  simp only [mem_entriesOf_iff]
  constructor
  · intro hnone rule hrule path n hn htarget
    obtain ⟨number, hnumber⟩ := List.mem_iff_getElem?.1 hrule
    refine Rule.says_iff.2 (Decidable.byContradiction fun hne => ?_)
    exact hnone _ (.intro hn hnumber htarget (Rule.says_iff.2 rfl) hne)
  · rintro hsilent e @⟨path, number, n, rule, messages, hn, hrule, htarget, hsays, hne⟩
    have hnil := Rule.says_iff.1 (hsilent rule (List.mem_of_getElem? hrule) path n hn htarget)
    exact hne ((Rule.says_iff.1 hsays).symm.trans hnil)

/-! ## Adding a rule -/

section Numbers

variable {α : Type} (before after : List α) (a : α)

/-- The numbers of a list around one of its members. -/
theorem zipIdx_around :
    (before ++ a :: after).zipIdx =
      before.zipIdx ++ (a, before.length) :: after.zipIdx (before.length + 1) := by
  rw [List.zipIdx_append, List.zipIdx_cons, Nat.zero_add]

/-- The rules before a rule have other numbers than it has. -/
theorem number_ne_of_before {x : α × Nat} (h : x ∈ before.zipIdx) : x.2 ≠ before.length := by
  have := List.snd_lt_of_mem_zipIdx h
  omega

/-- So have the rules behind it. -/
theorem number_ne_of_after {x : α × Nat} {number : Nat} (h : x ∈ after.zipIdx (number + 1)) :
    x.2 ≠ number := by
  have := List.le_snd_of_mem_zipIdx h
  omega

/-- Only the rule itself has its number. -/
theorem filter_number_eq :
    (before ++ a :: after).zipIdx.filter (fun x => x.2 = before.length) = [(a, before.length)] := by
  rw [zipIdx_around, List.filter_append, List.filter_cons_of_pos (by simp),
    List.filter_eq_nil_iff.2 fun x hx => by simpa using number_ne_of_before before hx,
    List.filter_eq_nil_iff.2 fun x hx => by simpa using number_ne_of_after after hx]
  rfl

/-- Without the rule of a number all others are left, in their order. -/
theorem map_filter_number_ne :
    ((before ++ a :: after).zipIdx.filter fun x => x.2 ≠ before.length).map Prod.fst =
      before ++ after := by
  rw [zipIdx_around, List.filter_append, List.filter_cons_of_neg (by simp),
    List.filter_eq_self.2 fun x hx => by simpa using number_ne_of_before before hx,
    List.filter_eq_self.2 fun x hx => by simpa using number_ne_of_after after hx,
    List.map_append, List.zipIdx_map_fst, List.zipIdx_map_fst]

end Numbers

/-- A run of rules reports the entries that are due, one for each node and rule, in the order of the
nodes and then of the rules. If a rule is added, at any place of the list, then the entries of its
number are those of the rule alone, and without them the run is the one that it was before. -/
theorem runRules_listed (root : Node) (symbols : Symbols) :
    (∀ rules, ∃ entries, Listing root symbols rules entries ∧
      entries.map Entry.report = runRules root symbols rules) ∧
    ∀ before rule after, ∃ entries, Listing root symbols (before ++ rule :: after) entries ∧
      entries.map Entry.report = runRules root symbols (before ++ rule :: after) ∧
      (entries.filter fun e => e.rule = before.length).map Entry.report =
        runRules root symbols [rule] ∧
      (entries.filter fun e => e.rule ≠ before.length).map Entry.report =
        runRules root symbols (before ++ after) := by
  refine ⟨fun rules => ?_, fun before rule after => ?_⟩
  · exact ⟨_, entriesOf_listing root symbols rules, map_report_entriesOf root symbols rules⟩
  · refine ⟨_, entriesOf_listing root symbols _, map_report_entriesOf root symbols _, ?_, ?_⟩
    · rw [map_report_filter root symbols _ fun number => number = before.length, filter_number_eq]
      rfl
    · rw [map_report_filter root symbols _ fun number => number ≠ before.length,
        map_filter_number_ne]

end ScriptLint
