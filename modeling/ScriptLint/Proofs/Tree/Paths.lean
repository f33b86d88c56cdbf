import ScriptLint.Tree.Walk

/-!
# The walk as the order of paths

A node of a tree has a path, the numbers of the children that lead to it from the root, and its
ancestors are the nodes at the proper beginnings of that path. Said of paths, a node comes before
what is below it and before what is below a later child, so the pre-order of a tree is the
lexicographic order of its paths (`Path.Before`).

`Node.sites` is the walk with the path of each visit. It has every path of the tree once, in
ascending order, with the node that is there and the types of its ancestors (`sites_ascending`,
`mem_sites_iff`, `map_sites`).
-/

namespace ScriptLint

/-- The order of paths. A path comes before those that go on from it, and of two paths that part the
one that takes the earlier child comes first. -/
def Path.Before (path path' : List Nat) : Prop := List.Lex (· < ·) path path'

/-- Of two paths only one comes before the other. -/
theorem Path.Before.asymm {path path' : List Nat} (h : Before path path') :
    ¬ Before path' path := by
  induction h with
  | nil => nofun
  | rel hlt =>
    intro hback
    cases hback with
    | rel hgt => omega
    | cons => omega
  | cons _ ih =>
    intro hback
    cases hback with
    | rel hlt => omega
    | cons hback => exact ih hback

/-- A context further down, by the types of the nodes that were entered, the closest first. -/
def Context.enterAll (context : Context) (types : List NodeType) : Context :=
  types.foldr (fun type above => above.enter type) context

theorem Context.enterAll_append (context : Context) (types outer : List NodeType) :
    context.enterAll (types ++ outer) = (context.enterAll outer).enterAll types :=
  List.foldr_append

/-- What is entered is found again above, the last first. -/
theorem Context.ancestors_enterAll (context : Context) (types : List NodeType) :
    (context.enterAll types).ancestors = types ++ context.ancestors := by
  induction types with
  | nil => rfl
  | cons type types ih => exact congrArg (type :: ·) ih

/-- The frames count the nodes that were entered. -/
theorem Context.size_enterAll (context : Context) (types : List NodeType) :
    (context.enterAll types).size = context.size + types.length := by
  induction types with
  | nil => rfl
  | cons type types ih => exact congrArg (· + 1) ih

namespace Node

/-- The ancestors of what stands at a path, the closest first. -/
def ancestors (root : Node) (path : List Nat) : List Node :=
  (List.range path.length).reverse.filterMap fun depth => root.descend? (path.take depth)

/-- The context of what stands at a path. -/
def contextAt (root : Node) (path : List Nat) : Context :=
  Context.root.enterAll ((root.ancestors path).map Node.type)

theorem ancestors_nil (root : Node) : root.ancestors [] = [] := rfl

/-- To go down a path is to go to a child and then down the rest of the path. -/
theorem descend?_cons {root child : Node} {i : Nat} (h : root.children[i]? = some child)
    (path : List Nat) : root.descend? (i :: path) = child.descend? path := by
  rw [descend?, h]
  rfl

/-- The ancestors of what is below a child, and then the parent of the child. -/
theorem ancestors_cons {root child : Node} {i : Nat} (h : root.children[i]? = some child)
    (path : List Nat) : root.ancestors (i :: path) = child.ancestors path ++ [root] := by
  have hbelow : (fun depth => root.descend? ((i :: path).take (depth + 1))) =
      fun depth => child.descend? (path.take depth) := by
    funext depth
    exact descend?_cons h _
  rw [ancestors, List.length_cons, List.range_succ_eq_map, List.reverse_cons,
    List.filterMap_append, ← List.map_reverse, List.filterMap_map]
  exact congrArg (· ++ [root]) (congrArg (List.filterMap · _) hbelow)

/-- To enter what is above a path below a child is to enter the parent of the child first. -/
theorem enterAll_ancestors_cons {root child : Node} {i : Nat} (h : root.children[i]? = some child)
    (path : List Nat) (context : Context) :
    context.enterAll ((root.ancestors (i :: path)).map Node.type) =
      (context.enter root.type).enterAll ((child.ancestors path).map Node.type) := by
  rw [ancestors_cons h, List.map_append, Context.enterAll_append]
  rfl

end Node

/-! ## Visits and their paths -/

mutual
/-- The visits of a tree whose root stands in `context`, with their paths. -/
def Node.sitesIn (context : Context) : Node → List (List Nat × Visit)
  | ⟨form, span, height, children⟩ =>
    ([], ⟨⟨form, span, height, children⟩, context⟩) ::
      sitesAll (context.enter form.type) 0 children
/-- The visits of several trees that are the children of a node from the `i`-th on. -/
def sitesAll (context : Context) (i : Nat) : List Node → List (List Nat × Visit)
  | [] => []
  | n :: ns =>
    (n.sitesIn context).map (fun site => (i :: site.1, site.2)) ++ sitesAll context (i + 1) ns
end

/-- The visits of a tree with their paths. -/
def Node.sites (root : Node) : List (List Nat × Visit) := root.sitesIn .root

theorem Node.sitesIn_eq (context : Context) (n : Node) :
    n.sitesIn context = ([], ⟨n, context⟩) :: sitesAll (context.enter n.type) 0 n.children := by
  cases n
  rw [sitesIn]
  rfl

mutual
/-- The visits of the sites are those of the walk. -/
theorem Node.map_sitesIn (context : Context) :
    (n : Node) → (n.sitesIn context).map Prod.snd = n.walkIn context
  | ⟨form, span, height, children⟩ => by
    rw [Node.sitesIn, Node.walkIn, List.map_cons, map_sitesAll]
/-- The visits of the sites below a node are those of the walks of its children. -/
theorem map_sitesAll (context : Context) (i : Nat) :
    (ns : List Node) → (sitesAll context i ns).map Prod.snd = walkAll context ns
  | [] => by rw [sitesAll, walkAll, List.map_nil]
  | n :: ns => by
    rw [sitesAll, walkAll, List.map_append, List.map_map, map_sitesAll context (i + 1) ns,
      ← n.map_sitesIn context]
    rfl
end

/-- Without the paths, the sites of a tree are its walk. -/
theorem Node.map_sites (root : Node) : root.sites.map Prod.snd = root.walk :=
  root.map_sitesIn .root

/-- A path below one of several children starts with the number of the child. -/
theorem mem_sitesAll_iff {context : Context} {i : Nat} {ns : List Node} {path : List Nat}
    {visit : Visit} :
    (path, visit) ∈ sitesAll context i ns ↔
      ∃ k n below, ns[k]? = some n ∧ path = (i + k) :: below ∧
        (below, visit) ∈ n.sitesIn context := by
  induction ns generalizing i with
  | nil => simp [sitesAll]
  | cons n ns ih =>
    rw [sitesAll, List.mem_append, List.mem_map, ih]
    constructor
    · rintro (⟨⟨below, v⟩, hmem, heq⟩ | ⟨k, m, below, hm, rfl, hmem⟩)
      · cases heq
        exact ⟨0, n, below, rfl, rfl, hmem⟩
      · exact ⟨k + 1, m, below, hm, by rw [Nat.add_right_comm, Nat.add_assoc], hmem⟩
    · rintro ⟨k, m, below, hm, rfl, hmem⟩
      cases k with
      | zero =>
        cases hm
        exact .inl ⟨(below, visit), hmem, rfl⟩
      | succ k => exact .inr ⟨k, m, below, hm, by rw [Nat.add_right_comm, Nat.add_assoc], hmem⟩

/-- A tree has a site for each of its paths. -/
theorem Node.mem_sitesIn_iff {context : Context} {n : Node} {path : List Nat} {visit : Visit} :
    (path, visit) ∈ n.sitesIn context ↔
      ∃ m, n.descend? path = some m ∧
        visit = ⟨m, context.enterAll ((n.ancestors path).map Node.type)⟩ := by
  induction path generalizing n context with
  | nil =>
    rw [sitesIn_eq, List.mem_cons, mem_sitesAll_iff]
    simp [descend?, ancestors_nil, Context.enterAll]
  | cons i path ih =>
    rw [sitesIn_eq, List.mem_cons, mem_sitesAll_iff]
    constructor
    · rintro (heq | ⟨k, child, below, hchild, hpath, hmem⟩)
      · cases heq
      · rw [Nat.zero_add] at hpath
        cases hpath
        obtain ⟨m, hm, rfl⟩ := ih.1 hmem
        exact ⟨m, (descend?_cons hchild path).trans hm, by rw [enterAll_ancestors_cons hchild]⟩
    · rintro ⟨m, hm, rfl⟩
      cases hchild : n.children[i]? with
      | none =>
        rw [descend?, hchild] at hm
        cases hm
      | some child =>
        rw [descend?_cons hchild] at hm
        refine .inr ⟨i, child, path, hchild, by rw [Nat.zero_add], ih.2 ⟨m, hm, ?_⟩⟩
        rw [enterAll_ancestors_cons hchild]

/-- The sites of a tree are the nodes at its paths, each in the context of its path. -/
theorem Node.mem_sites_iff {root : Node} {path : List Nat} {visit : Visit} :
    (path, visit) ∈ root.sites ↔
      ∃ n, root.descend? path = some n ∧ visit = ⟨n, root.contextAt path⟩ := by
  exact mem_sitesIn_iff

mutual
/-- The walk goes through the paths in order. -/
theorem Node.sitesIn_ascending (context : Context) :
    (n : Node) → (n.sitesIn context).Pairwise fun a b => Path.Before a.1 b.1
  | ⟨form, span, height, children⟩ => by
    rw [Node.sitesIn, List.pairwise_cons]
    refine ⟨?_, sitesAll_ascending _ 0 children⟩
    rintro ⟨path, visit⟩ hmem
    obtain ⟨k, n, below, _, rfl, _⟩ := mem_sitesAll_iff.1 hmem
    exact .nil
/-- The walks of children go through the paths in order as well. -/
theorem sitesAll_ascending (context : Context) (i : Nat) :
    (ns : List Node) → (sitesAll context i ns).Pairwise fun a b => Path.Before a.1 b.1
  | [] => by
    rw [sitesAll]
    exact .nil
  | n :: ns => by
    rw [sitesAll, List.pairwise_append]
    refine ⟨?_, sitesAll_ascending context (i + 1) ns, ?_⟩
    · refine List.pairwise_map.2 ((n.sitesIn_ascending context).imp fun hlt => ?_)
      exact .cons hlt
    · -- what is below this child has the number of this child in front
      rintro ⟨path, visit⟩ hmem ⟨path', visit'⟩ hmem'
      obtain ⟨site, _, heq⟩ := List.mem_map.1 hmem
      obtain ⟨k, m, below, _, rfl, _⟩ := mem_sitesAll_iff.1 hmem'
      cases heq
      exact .rel (by omega)
end

/-- The sites of a tree stand in the order of their paths. -/
theorem Node.sites_ascending (root : Node) : root.sites.Pairwise fun a b => Path.Before a.1 b.1 :=
  root.sitesIn_ascending .root

/-- The visits of a tree are the nodes at its paths. -/
theorem Node.mem_walk_iff {root : Node} {visit : Visit} :
    visit ∈ root.walk ↔
      ∃ path n, root.descend? path = some n ∧ visit = ⟨n, root.contextAt path⟩ := by
  simp only [← root.map_sites, List.mem_map, Prod.exists, exists_eq_right, mem_sites_iff]

end ScriptLint
