import ScriptLint.Proofs.Tree.Paths

/-!
# Contexts, subtrees and heights in a walk

A walk goes through the paths of a tree in ascending order, with the node at each path. This module
adds what a walk says about a tree beyond that. The context of a visit is the chain of the nodes
above it, however it is asked for (`Context.Describes`). The paths that go through one path follow
on each other, and without what is above it they are the walk of the subtree there
(`Node.exists_slice`). The longest chain has as many nodes as a built tree has levels below its
root (`Node.Assembled.size_lt_height`, `Node.Assembled.exists_deepest`).
-/

namespace ScriptLint

/-! ## Contexts -/

/-- What a context answers if the nodes above it have the types `chain`, from the root downwards. -/
structure Context.Describes (context : Context) (chain : List NodeType) : Prop where
  path : context.path = chain
  ancestors : context.ancestors = chain.reverse
  size : context.size = chain.length
  isRoot : context.isRoot = true ↔ chain = []
  parent? : context.parent? = chain.getLast?
  contains : ∀ type, context.contains type = true ↔ type ∈ chain

/-- A context is that of the root if nothing stands above. -/
theorem Context.isRoot_iff (context : Context) :
    context.isRoot = true ↔ context.ancestors = [] := by
  cases context <;> simp [isRoot, ancestors]

/-- The parent is the first of what stands above. -/
theorem Context.parent?_eq (context : Context) : context.parent? = context.ancestors.head? := by
  cases context <;> rfl

/-- What was entered one after the other is what a context answers with. The frames are asked for
their number, so this does not hold of any chain of frames. -/
theorem Context.describes_enterAll (types : List NodeType) :
    (root.enterAll types).Describes types.reverse := by
  have hancestors : (root.enterAll types).ancestors = types := by
    rw [ancestors_enterAll, ancestors, List.append_nil]
  exact {
    path := by rw [path, hancestors]
    ancestors := by rw [hancestors, List.reverse_reverse]
    size := by rw [size_enterAll, size, Nat.zero_add, List.length_reverse]
    isRoot := by rw [isRoot_iff, hancestors, List.reverse_eq_nil_iff]
    parent? := by rw [parent?_eq, hancestors, List.getLast?_reverse]
    contains := fun type => by simp [contains, hancestors] }

namespace Node

/-- The nodes above a path, from the root downwards. -/
theorem ancestors_reverse {root n : Node} {path : List Nat} (h : root.descend? path = some n) :
    (root.ancestors path).length = path.length ∧
      ∀ depth, depth < path.length →
        root.descend? (path.take depth) = (root.ancestors path).reverse[depth]? := by
  induction path generalizing root with
  | nil => exact ⟨rfl, fun _ hdepth => absurd hdepth (Nat.not_lt_zero _)⟩
  | cons i path ih =>
    obtain ⟨child, hchild, hbelow⟩ := Option.bind_eq_some_iff.1 h
    obtain ⟨hlength, hnodes⟩ := ih hbelow
    rw [ancestors_cons hchild, List.length_append, hlength, List.reverse_append]
    refine ⟨rfl, fun depth hdepth => ?_⟩
    cases depth with
    | zero => rfl
    | succ depth =>
      exact (descend?_cons hchild _).trans (hnodes depth (Nat.lt_of_succ_lt_succ hdepth))

end Node

/-! ## Subtrees -/

/-- A context without the outermost `count` of its ancestors. -/
def Context.inner (context : Context) (count : Nat) : Context :=
  root.enterAll (context.path.drop count).reverse

/-- A visit as a walk makes it that starts `count` levels further down. -/
def Visit.inner (visit : Visit) (count : Nat) : Visit := ⟨visit.node, visit.context.inner count⟩

/-- What was entered first is forgotten. -/
theorem Context.inner_enterAll (types outer : List NodeType) :
    (root.enterAll (types ++ outer)).inner outer.length = root.enterAll types := by
  rw [inner, (describes_enterAll _).path, List.reverse_append,
    List.drop_left' List.length_reverse, List.reverse_reverse]

mutual
/-- Without the ancestors of the place where a walk starts, it is the walk from there. -/
theorem Node.map_inner_sitesIn (types outer : List NodeType) :
    (n : Node) → ((n.sitesIn (Context.root.enterAll (types ++ outer))).map fun site =>
      (site.1, site.2.inner outer.length)) = n.sitesIn (Context.root.enterAll types)
  | ⟨form, span, height, children⟩ => by
    rw [Node.sitesIn, Node.sitesIn, List.map_cons, Visit.inner, Context.inner_enterAll]
    exact congrArg (_ :: ·) (map_inner_sitesAll (form.type :: types) outer 0 children)
/-- Seen from inside, the sites of children are as if the walk had started there. -/
theorem map_inner_sitesAll (types outer : List NodeType) (i : Nat) :
    (ns : List Node) → ((sitesAll (Context.root.enterAll (types ++ outer)) i ns).map fun site =>
      (site.1, site.2.inner outer.length)) = sitesAll (Context.root.enterAll types) i ns
  | [] => by rw [sitesAll, sitesAll, List.map_nil]
  | n :: ns => by
    rw [sitesAll, sitesAll, List.map_append, map_inner_sitesAll types outer (i + 1) ns,
      ← n.map_inner_sitesIn types outer, List.map_map, List.map_map]
    rfl
end

/-- The sites of children go on counting where those before them end. -/
theorem sitesAll_append (context : Context) (i : Nat) (ms ns : List Node) :
    sitesAll context i (ms ++ ns) =
      sitesAll context i ms ++ sitesAll context (i + ms.length) ns := by
  induction ms generalizing i with
  | nil => rw [List.nil_append, sitesAll, List.nil_append, List.length_nil, Nat.add_zero]
  | cons m ms ih =>
    rw [List.cons_append, sitesAll, sitesAll, ih, List.append_assoc, List.length_cons,
      Nat.add_right_comm, Nat.add_assoc]

/-- Below the children before and behind one child no path leads through that child. -/
theorem not_prefix_of_mem_sitesAll {context : Context} {i k : Nat} {ns : List Node}
    {path : List Nat} {site : List Nat × Visit} (hsite : site ∈ sitesAll context k ns)
    (hi : i < k ∨ k + ns.length ≤ i) : ¬ i :: path <+: site.1 := by
  obtain ⟨m, _, below, hm, hpath, -⟩ := mem_sitesAll_iff.1 hsite
  have hlt : m < ns.length := (List.getElem?_eq_some_iff.1 hm).1
  rw [hpath, List.cons_prefix_cons]
  rintro ⟨rfl, -⟩
  omega

/-- The sites of a tree through a path follow on each other and are those of the subtree there. -/
theorem Node.exists_slice {root n : Node} {path : List Nat} (h : root.descend? path = some n)
    (context : Context) :
    ∃ before after, root.sitesIn context =
        before ++ (n.sitesIn (context.enterAll ((root.ancestors path).map Node.type))).map
          (fun site => (path ++ site.1, site.2)) ++ after ∧
      ∀ site ∈ before ++ after, ¬ path <+: site.1 := by
  induction path generalizing root context with
  | nil =>
    cases h
    exact ⟨[], [], by simp [ancestors_nil, Context.enterAll], List.forall_mem_nil _⟩
  | cons i path ih =>
    obtain ⟨child, hchild, hbelow⟩ := Option.bind_eq_some_iff.1 h
    obtain ⟨before, after, hsites, hother⟩ := ih hbelow (context.enter root.type)
    obtain ⟨left, right, hchildren, rfl⟩ :
        ∃ left right, root.children = left ++ child :: right ∧ left.length = i := by
      obtain ⟨hi, rfl⟩ := List.getElem?_eq_some_iff.1 hchild
      refine ⟨root.children.take i, root.children.drop (i + 1), ?_, ?_⟩
      · rw [← List.drop_eq_getElem_cons, List.take_append_drop]
      · exact List.length_take_of_le (Nat.le_of_lt hi)
    let deeper (sites : List (List Nat × Visit)) : List (List Nat × Visit) :=
      sites.map fun site => (left.length :: site.1, site.2)
    refine ⟨([], ⟨root, context⟩) :: sitesAll (context.enter root.type) 0 left ++ deeper before,
      deeper after ++ sitesAll (context.enter root.type) (left.length + 1) right, ?_, ?_⟩
    · rw [sitesIn_eq, hchildren, sitesAll_append, sitesAll, hsites, enterAll_ancestors_cons hchild]
      simp [deeper]
    · -- a path through the child either leads through the path below it or does not
      have hdeeper (sites : List (List Nat × Visit)) (h : ∀ site ∈ sites, ¬ path <+: site.1) :
          ∀ site ∈ deeper sites, ¬ left.length :: path <+: site.1 := by
        intro site hsite
        obtain ⟨site, hmem, rfl⟩ := List.mem_map.1 hsite
        rw [List.cons_prefix_cons]
        exact fun hprefix => h site hmem hprefix.2
      obtain ⟨hbefore, hafter⟩ := List.forall_mem_append.1 hother
      simp only [List.forall_mem_append, List.forall_mem_cons]
      refine ⟨⟨⟨by simp, fun site hsite => ?_⟩, hdeeper before hbefore⟩, hdeeper after hafter,
        fun site hsite => ?_⟩
      · exact not_prefix_of_mem_sitesAll hsite (.inr (by omega))
      · exact not_prefix_of_mem_sitesAll hsite (.inl (by omega))

/-- The visits through a path follow on each other and are the walk of the subtree there, in
contexts that start at the root of the tree instead. -/
theorem Node.exists_walk_slice {root n : Node} {path : List Nat}
    (h : root.descend? path = some n) :
    ∃ before slice after, root.sites = before ++ slice ++ after ∧
      (∀ site ∈ slice, path <+: site.1) ∧ (∀ site ∈ before ++ after, ¬ path <+: site.1) ∧
      n.walk = slice.map fun site => site.2.inner path.length := by
  obtain ⟨before, after, hsites, hother⟩ := exists_slice h .root
  refine ⟨before, _, after, hsites, fun site hsite => ?_, hother, ?_⟩
  · obtain ⟨below, -, rfl⟩ := List.mem_map.1 hsite
    exact List.prefix_append _ _
  · have hlength : ((root.ancestors path).map Node.type).length = path.length := by
      rw [List.length_map, (ancestors_reverse h).1]
    have hinner := n.map_inner_sitesIn [] ((root.ancestors path).map Node.type)
    rw [List.nil_append, hlength] at hinner
    rw [List.map_map, ← n.map_sites, sites]
    show (n.sitesIn (Context.root.enterAll [])).map _ = _
    rw [← hinner, List.map_map]
    rfl

/-! ## Heights -/

/-- A tree whose nodes were all built over their children. -/
inductive Node.Assembled : Node → Prop where
  | intro (form : Form) (span : Span) {children : List Node} :
      (∀ child ∈ children, child.Assembled) → (Node.build form span children).Assembled

theorem mem_walkAll_iff {context : Context} {ns : List Node} {visit : Visit} :
    visit ∈ walkAll context ns ↔ ∃ n ∈ ns, visit ∈ n.walkIn context := by
  induction ns with
  | nil => simp [walkAll]
  | cons n ns ih => simp [walkAll, ih]

/-- The walk of a node that is built. -/
theorem Node.walkIn_build (form : Form) (span : Span) (children : List Node) (context : Context) :
    (build form span children).walkIn context =
      ⟨build form span children, context⟩ :: walkAll (context.enter form.type) children := by
  rw [build, walkIn]

/-- A node is taller than its children. -/
theorem Node.height_lt_build {form : Form} {span : Span} {children : List Node} {child : Node}
    (h : child ∈ children) : child.height < (build form span children).height := by
  show child.height < 1 + children.foldr (fun child tallest => max child.height tallest) 0
  induction h with
  | head => rw [List.foldr_cons]; omega
  | tail _ _ ih => rw [List.foldr_cons]; omega

/-- The height of a node that is built over children is one more than that of one of them, or one if
there is none. -/
theorem Node.height_build_eq (form : Form) (span : Span) (children : List Node) :
    (children = [] ∧ (build form span children).height = 1) ∨
      ∃ child ∈ children, (build form span children).height = child.height + 1 := by
  show (_ ∧ 1 + _ = _) ∨ ∃ child ∈ children, 1 + _ = _
  induction children with
  | nil => exact .inl ⟨rfl, rfl⟩
  | cons child children ih =>
    right
    rw [List.foldr_cons]
    obtain hle | hgt := Nat.le_total (children.foldr (fun n tallest => max n.height tallest) 0)
      child.height
    · exact ⟨child, List.mem_cons_self, by omega⟩
    · obtain ⟨rfl, -⟩ | ⟨other, hother, hheight⟩ := ih
      · exact ⟨child, List.mem_cons_self, by rw [List.foldr_nil]; omega⟩
      · exact ⟨other, List.mem_cons_of_mem _ hother, by omega⟩

namespace Node.Assembled

variable {n : Node}

/-- No chain above a node is as long as the tree is high. -/
theorem size_lt_height (h : n.Assembled) (context : Context) :
    ∀ visit ∈ n.walkIn context, visit.context.size < context.size + n.height := by
  induction h generalizing context with
  | @intro form span children _ ih =>
    rw [walkIn_build]
    refine List.forall_mem_cons.2 ⟨Nat.lt_add_of_pos_right (Nat.add_pos_left Nat.one_pos _), ?_⟩
    intro visit hvisit
    obtain ⟨child, hchild, hbelow⟩ := mem_walkAll_iff.1 hvisit
    have hlt := ih child hchild _ visit hbelow
    have hheight : child.height < (build form span children).height := height_lt_build hchild
    rw [show (context.enter form.type).size = context.size + 1 from rfl] at hlt
    omega

/-- Above some node the chain is only one shorter. -/
theorem exists_deepest (h : n.Assembled) (context : Context) :
    ∃ visit ∈ n.walkIn context, context.size + n.height = visit.context.size + 1 := by
  induction h generalizing context with
  | @intro form span children _ ih =>
    rw [walkIn_build]
    obtain ⟨-, hheight⟩ | ⟨child, hchild, hheight⟩ := height_build_eq form span children
    · exact ⟨_, List.mem_cons_self, by rw [hheight]⟩
    · obtain ⟨visit, hvisit, hsize⟩ := ih child hchild (context.enter form.type)
      refine ⟨visit, List.mem_cons_of_mem _ (mem_walkAll_iff.2 ⟨child, hchild, hvisit⟩), ?_⟩
      rw [show (context.enter form.type).size = context.size + 1 from rfl] at hsize
      omega

end Node.Assembled

end ScriptLint
