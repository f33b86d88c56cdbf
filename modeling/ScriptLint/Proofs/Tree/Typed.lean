import Mathlib.Control.Fold
import Mathlib.Tactic.DeriveTraversable
import ScriptLint.Proofs.Grammar.WellFormed
import ScriptLint.Proofs.Tree.Preorder
import ScriptLint.Tree.Typed

/-!
# Walks of trees with named parts

A tree with named parts has a part in every field that holds one. Which fields these are can be read
off the type of `NodeKind` alone: `NodeKind.fields` collects them by the traversal that is derived
from the type, and `NodeKind.children_eq_fields` says that `NodeKind.children` leaves out none of
them, has none twice and keeps their order. What occurs in a tree is what such fields lead to
(`SyntaxTree.At`).

A tree and its uniform layout have the same walk (`SyntaxTree.walkIn_toNode`), so what is known of
walks of nodes holds here too. No two trees have the same layout, and the node of every script is
the layout of a tree (`Node.typed?_eq_some_iff`, `exists_typed_of_parse`).

Main statement: `walk_is_preorder`.
-/

namespace ScriptLint

/-! ## Parts and fields -/

deriving instance Functor for NodeKind
deriving instance Traversable for NodeKind

namespace NodeKind

variable {α : Type}

/-- What the fields of a kind hold, in the order of its type. -/
def fields (kind : NodeKind α) : List α := (Traversable.foldMap FreeMonoid.of kind).toList

/-- What a list holds is the list. -/
theorem toList_foldMap_of (parts : List α) :
    (Traversable.foldMap FreeMonoid.of parts).toList = parts := by
  rw [← Traversable.toList_spec, Traversable.toList_eq_self]

/-- The children of a kind are what its fields hold, each once and in the order of the fields. -/
theorem children_eq_fields (kind : NodeKind α) : kind.children = kind.fields := by
  cases kind
  case program parts | compoundStatement parts | formalParameterList parts
      | functionArgumentList parts | variableDefinitionList _ parts | sequenceExpression parts
      | arrayExpression parts | objectExpression parts => exact (toList_foldMap_of parts).symm
  case switchStatement discriminant cases =>
    exact congrArg (discriminant :: ·) (toList_foldMap_of cases).symm
  case switchCase test consequent =>
    exact congrArg (test.toList ++ ·) (toList_foldMap_of consequent).symm
  all_goals rfl

section Arities

variable {parts : List α} {kind : NodeKind α}

/-- A leaf is put together of no parts. -/
theorem ofNone_eq_some_iff {leaf : NodeKind α} :
    ofNone leaf parts = some kind ↔ parts = [] ∧ leaf = kind := by
  cases parts <;> simp [ofNone]

theorem ofOne_eq_some_iff {make : α → NodeKind α} :
    ofOne make parts = some kind ↔ ∃ a, parts = [a] ∧ make a = kind := by
  rcases parts with _ | ⟨a, _ | ⟨b, parts⟩⟩ <;> simp [ofOne]

theorem ofTwo_eq_some_iff {make : α → α → NodeKind α} :
    ofTwo make parts = some kind ↔ ∃ a b, parts = [a, b] ∧ make a b = kind := by
  rcases parts with _ | ⟨a, _ | ⟨b, _ | ⟨c, parts⟩⟩⟩ <;> simp [ofTwo]

theorem ofThree_eq_some_iff {make : α → α → α → NodeKind α} :
    ofThree make parts = some kind ↔ ∃ a b c, parts = [a, b, c] ∧ make a b c = kind := by
  rcases parts with _ | ⟨a, _ | ⟨b, _ | ⟨c, _ | ⟨d, parts⟩⟩⟩⟩ <;> simp [ofThree]

theorem ofFour_eq_some_iff {make : α → α → α → α → NodeKind α} :
    ofFour make parts = some kind ↔ ∃ a b c d, parts = [a, b, c, d] ∧ make a b c d = kind := by
  rcases parts with _ | ⟨a, _ | ⟨b, _ | ⟨c, _ | ⟨d, _ | ⟨e, parts⟩⟩⟩⟩⟩ <;> simp [ofFour]

/-- A kind with one part and a list behind it needs at least the one. -/
theorem ofFirst_eq_some_iff {make : α → List α → NodeKind α} :
    ofFirst make parts = some kind ↔ ∃ a others, parts = a :: others ∧ make a others = kind := by
  cases parts <;> simp [ofFirst]

/-- A kind is made up of its form and its children. -/
theorem ofParts?_eq_some_iff {form : Form} :
    ofParts? form parts = some kind ↔ kind.form = form ∧ kind.children = parts := by
  constructor
  · unfold ofParts?
    split
    all_goals
      simp only [ofNone_eq_some_iff, ofOne_eq_some_iff, ofTwo_eq_some_iff, ofThree_eq_some_iff,
        ofFour_eq_some_iff, ofFirst_eq_some_iff, Function.comp_apply, Option.some.injEq,
        forall_exists_index, and_imp]
      intros
      subst_vars
      exact ⟨rfl, rfl⟩
  · rintro ⟨rfl, rfl⟩
    cases kind
    case ifStatement _ _ alternate => cases alternate <;> rfl
    case switchCase test _ => cases test <;> rfl
    case returnStatement argument => cases argument <;> rfl
    case tryStatement _ handler finalizer => cases handler <;> cases finalizer <;> rfl
    case variableDefinition _ init => cases init <;> rfl
    case newExpression _ arguments => cases arguments <;> rfl
    all_goals rfl

end Arities

end NodeKind

/-! ## Trees and their layout -/

namespace SyntaxTree

variable {root tree : SyntaxTree}

/-- What holds of a tree if it holds of its parts holds of every tree. -/
theorem induction {motive : SyntaxTree → Prop}
    (step : ∀ tree, (∀ child ∈ tree.kind.children, motive child) → motive tree) :
    (tree : SyntaxTree) → motive tree
  | ⟨span, height, kind⟩ => step ⟨span, height, kind⟩ fun child _ => induction step child
termination_by tree => tree
decreasing_by exact sizeOf_lt ‹_›

/-- A tree is laid out with the parts of its kind as children. -/
theorem toNode_eq (tree : SyntaxTree) :
    tree.toNode = ⟨tree.kind.form, tree.span, tree.height, tree.kind.children.map toNode⟩ := by
  cases tree
  rw [toNode]
  simp

/-- A walk visits the tree and then the parts of its kind, one subtree after the other. -/
theorem walkIn_eq (context : Context) (tree : SyntaxTree) :
    tree.walkIn context = ⟨tree, context⟩ ::
      tree.kind.children.flatMap fun child => child.walkIn (context.enter tree.kind.type) := by
  cases tree
  rw [walkIn]
  simp

theorem toNode_children (tree : SyntaxTree) :
    tree.toNode.children = tree.kind.children.map toNode := by
  rw [toNode_eq]

/-- The layout keeps the type. -/
theorem toNode_type (tree : SyntaxTree) : tree.toNode.type = tree.kind.type := by
  rw [toNode_eq]
  rfl

/-- The layout keeps the height that is stored. -/
theorem toNode_height (tree : SyntaxTree) : tree.toNode.height = tree.height := by
  rw [toNode_eq]

/-- Trees that are found again one by one are found again in a list. -/
theorem typedAll?_map_toNode {trees : List SyntaxTree}
    (h : ∀ tree ∈ trees, tree.toNode.typed? = some tree) :
    typedAll? (trees.map toNode) = some trees := by
  induction trees with
  | nil => rw [List.map_nil, typedAll?]
  | cons tree trees ih =>
    rw [List.map_cons, typedAll?, h tree List.mem_cons_self,
      ih fun other hother => h other (List.mem_cons_of_mem _ hother)]
    rfl

/-- A tree is read back from its layout. -/
theorem typed?_toNode (tree : SyntaxTree) : tree.toNode.typed? = some tree := by
  induction tree using induction with
  | step tree ih =>
    obtain ⟨span, height, kind⟩ := tree
    rw [toNode_eq, Node.typed?, typedAll?_map_toNode ih]
    show (NodeKind.ofParts? kind.form kind.children >>= _) = _
    rw [NodeKind.ofParts?_eq_some_iff.2 ⟨rfl, rfl⟩]
    rfl

/-- No two trees have the same layout. -/
theorem toNode_injective : Function.Injective toNode := by
  intro tree tree' h
  have hread := typed?_toNode tree'
  rw [← h, typed?_toNode] at hread
  exact Option.some.inj hread

end SyntaxTree

mutual
/-- What is found in a node is laid out as that node. -/
theorem Node.toNode_of_typed? :
    (n : Node) → {tree : SyntaxTree} → n.typed? = some tree → tree.toNode = n
  | ⟨form, span, height, children⟩, tree, h => by
    rw [Node.typed?] at h
    obtain ⟨parts, hparts, h⟩ := Option.bind_eq_some_iff.1 h
    obtain ⟨kind, hkind, h⟩ := Option.bind_eq_some_iff.1 h
    cases h
    obtain ⟨rfl, rfl⟩ := NodeKind.ofParts?_eq_some_iff.1 hkind
    rw [SyntaxTree.toNode_eq, map_toNode_of_typedAll? children hparts]
/-- What is found in a list of nodes is laid out as that list. -/
theorem map_toNode_of_typedAll? :
    (ns : List Node) → {trees : List SyntaxTree} → typedAll? ns = some trees →
      trees.map SyntaxTree.toNode = ns
  | [], _, h => by
    rw [typedAll?] at h
    cases h
    rfl
  | n :: ns, _, h => by
    rw [typedAll?] at h
    obtain ⟨tree, htree, h⟩ := Option.bind_eq_some_iff.1 h
    obtain ⟨trees, htrees, h⟩ := Option.bind_eq_some_iff.1 h
    cases h
    rw [List.map_cons, n.toNode_of_typed? htree, map_toNode_of_typedAll? ns htrees]
end

/-- A node is read as the tree whose layout it is. -/
theorem Node.typed?_eq_some_iff {n : Node} {tree : SyntaxTree} :
    n.typed? = some tree ↔ tree.toNode = n := by
  constructor
  · exact n.toNode_of_typed?
  · rintro rfl
    exact tree.typed?_toNode

/-! ## Trees of scripts -/

/-- Whether a shape goes with a number of children. How many it asks for at least is left aside. -/
def Shape.counts : (shape : Shape) → (count : Nat) → Bool
  | .done, 0 => true
  | .done, _ + 1 => false
  | .part _ _, 0 => false
  | .part _ others, count + 1 => others.counts count
  | .many _ _, _ => true

/-- Children that fit a shape are as many as the shape wants. -/
theorem Shape.counts_of_fits {shape : Shape} {forms : List Form} (h : shape.fits forms = true) :
    shape.counts forms.length = true := by
  induction shape generalizing forms with
  | done =>
    cases forms with
    | nil => rfl
    | cons form forms => cases h
  | part role others ih =>
    cases forms with
    | nil => cases h
    | cons form forms => exact ih (Bool.and_eq_true_iff.1 h).2
  | many least role => rw [counts]

/-- A form and a list of parts make a kind if there are as many parts as the form's shape has. -/
theorem NodeKind.isSome_ofParts? {α : Type} {form : Form} {shape : Shape}
    (h : form.shape? = some shape) (parts : List α) :
    (ofParts? form parts).isSome = shape.counts parts.length := by
  unfold Form.shape? at h
  split at h <;> cases h <;>
    rcases parts with _ | ⟨a, _ | ⟨b, _ | ⟨c, _ | ⟨d, _ | ⟨e, parts⟩⟩⟩⟩⟩ <;> rfl

mutual
/-- A tree with well-formed nodes is the layout of a tree with named parts. -/
theorem Node.exists_typed : (n : Node) → n.Everywhere Node.WellFormed →
    ∃ tree : SyntaxTree, tree.toNode = n
  | ⟨form, span, height, children⟩, .intro ⟨shape, hshape, hfits⟩ hchildren => by
    obtain ⟨parts, rfl⟩ := exists_typedAll children hchildren
    have hkind := NodeKind.isSome_ofParts? hshape parts
    rw [← List.length_map (f := SyntaxTree.toNode), ← List.length_map (f := Node.form),
      Shape.counts_of_fits hfits] at hkind
    obtain ⟨kind, hkind⟩ := Option.isSome_iff_exists.1 hkind
    obtain ⟨rfl, rfl⟩ := NodeKind.ofParts?_eq_some_iff.1 hkind
    exact ⟨⟨span, height, kind⟩, SyntaxTree.toNode_eq _⟩
/-- Children that are well formed are the layout of trees. -/
theorem exists_typedAll : (ns : List Node) → (∀ n ∈ ns, n.Everywhere Node.WellFormed) →
    ∃ trees : List SyntaxTree, trees.map SyntaxTree.toNode = ns
  | [], _ => ⟨[], rfl⟩
  | n :: ns, h => by
    obtain ⟨tree, htree⟩ := n.exists_typed (h n List.mem_cons_self)
    obtain ⟨trees, htrees⟩ := exists_typedAll ns fun m hm => h m (List.mem_cons_of_mem _ hm)
    exact ⟨tree :: trees, congrArg₂ List.cons htree htrees⟩
end

/-- The node of a script is the layout of one tree. -/
theorem exists_typed_of_parse {source : String} {root : Node} (h : parse source = .ok root) :
    ∃! tree : SyntaxTree, tree.toNode = root := by
  obtain ⟨-, hderived⟩ := derived_of_parse h
  obtain ⟨tree, rfl⟩ := root.exists_typed (hderived.imp fun _ hn => hn.wellFormed)
  exact ⟨tree, rfl, fun _ heq => SyntaxTree.toNode_injective heq⟩

/-! ## What occurs in a tree -/

/-- `root.At path tree` says that `tree` is where the fields with the numbers of `path` lead. -/
inductive SyntaxTree.At : SyntaxTree → List Nat → SyntaxTree → Prop where
  | here {root : SyntaxTree} : root.At [] root
  | part {root child tree : SyntaxTree} {i : Nat} {path : List Nat} :
      root.kind.fields[i]? = some child → child.At path tree → root.At (i :: path) tree

/-- A tree of which every node was built over its parts. -/
inductive SyntaxTree.Built : SyntaxTree → Prop where
  | intro (span : Span) {kind : NodeKind SyntaxTree} :
      (∀ child ∈ kind.fields, child.Built) → (SyntaxTree.build span kind).Built

namespace SyntaxTree

variable {root tree : SyntaxTree} {path : List Nat}

/-- Where a tree occurs by the fields of its kinds it is found by going down the parts, and the
other way round. -/
theorem at_iff : root.At path tree ↔ root.descend? path = some tree := by
  induction path generalizing root with
  | nil =>
    constructor
    · rintro ⟨⟩
      rfl
    · rintro ⟨⟩
      exact .here
  | cons i path ih =>
    rw [descend?, NodeKind.children_eq_fields]
    constructor
    · rintro (_ | ⟨hchild, hat⟩)
      rw [hchild]
      exact ih.1 hat
    · intro h
      obtain ⟨child, hchild, hbelow⟩ := Option.bind_eq_some_iff.1 h
      exact .part hchild (ih.2 hbelow)

/-- Where a path leads in a layout is the layout of where it leads in the tree. -/
theorem descend?_toNode (root : SyntaxTree) (path : List Nat) :
    root.toNode.descend? path = (root.descend? path).map toNode := by
  induction path generalizing root with
  | nil => rfl
  | cons i path ih =>
    rw [Node.descend?, descend?, toNode_children, List.getElem?_map]
    cases root.kind.children[i]? with
    | none => rfl
    | some child => exact ih child

/-- What stands above a path, the closest first. -/
def ancestors (root : SyntaxTree) (path : List Nat) : List SyntaxTree :=
  (List.range path.length).reverse.filterMap fun depth => root.descend? (path.take depth)

/-- The layout keeps what stands above a path. -/
theorem ancestors_toNode (root : SyntaxTree) (path : List Nat) :
    root.toNode.ancestors path = (root.ancestors path).map toNode := by
  rw [Node.ancestors, ancestors, List.map_filterMap]
  simp only [descend?_toNode]

/-- There is something above every beginning of a path that leads somewhere. -/
theorem ancestors_reverse (h : root.descend? path = some tree) :
    (root.ancestors path).length = path.length ∧
      ∀ depth above, (root.ancestors path).reverse[depth]? = some above →
        root.At (path.take depth) above := by
  have hnode : root.toNode.descend? path = some tree.toNode := by rw [descend?_toNode, h]; rfl
  obtain ⟨hlength, hchain⟩ := Node.ancestors_reverse hnode
  rw [ancestors_toNode] at hlength hchain
  rw [List.length_map] at hlength
  refine ⟨hlength, fun depth above habove => ?_⟩
  have hdepth : depth < path.length := by
    rw [← hlength, ← List.length_reverse]
    exact (List.getElem?_eq_some_iff.1 habove).1
  have hread := hchain depth hdepth
  rw [← List.map_reverse, List.getElem?_map, habove, descend?_toNode] at hread
  obtain ⟨other, hother, heq⟩ := Option.map_eq_some_iff.1 hread
  rw [← toNode_injective heq]
  exact at_iff.2 hother

/-! ## Walks -/

/-- A visit of a tree as a visit of its layout. -/
def Visit.toNode (visit : Visit) : ScriptLint.Visit := ⟨visit.tree.toNode, visit.context⟩

/-- A visit as a walk makes it that starts `count` levels further down. -/
def Visit.inner (visit : Visit) (count : Nat) : Visit := ⟨visit.tree, visit.context.inner count⟩

/-- Visits of different trees stay different in the layout. -/
theorem Visit.toNode_injective : Function.Injective Visit.toNode := by
  rintro ⟨tree, context⟩ ⟨tree', context'⟩ h
  obtain ⟨htree, hcontext⟩ := ScriptLint.Visit.mk.inj h
  exact congrArg₂ mk (SyntaxTree.toNode_injective htree) hcontext

/-- The walks of some trees are laid out one after the other. -/
theorem walkAll_map_toNode (context : Context) {trees : List SyntaxTree}
    (h : ∀ tree ∈ trees, tree.toNode.walkIn context = (tree.walkIn context).map Visit.toNode) :
    walkAll context (trees.map toNode) =
      (trees.flatMap fun tree => tree.walkIn context).map Visit.toNode := by
  induction trees with
  | nil => rw [List.map_nil, walkAll, List.flatMap_nil, List.map_nil]
  | cons tree trees ih =>
    rw [List.map_cons, walkAll, h tree List.mem_cons_self,
      ih fun other hother => h other (List.mem_cons_of_mem _ hother), List.flatMap_cons,
      List.map_append]

/-- A tree and its layout have the same walk. -/
theorem walkIn_toNode (context : Context) (tree : SyntaxTree) :
    tree.toNode.walkIn context = (tree.walkIn context).map Visit.toNode := by
  induction tree using induction generalizing context with
  | step tree ih =>
    have hbelow := walkAll_map_toNode (context.enter tree.kind.type) fun child hchild =>
      ih child hchild (context.enter tree.kind.type)
    rw [walkIn_eq, List.map_cons, ← hbelow, Visit.toNode, toNode_eq, Node.walkIn]
    rfl

/-- The walk of a tree is laid out as the walk of its layout. -/
theorem walk_toNode (root : SyntaxTree) : root.toNode.walk = root.walk.map Visit.toNode :=
  walkIn_toNode .root root

/-- A list of images with something beside each of them comes from a list of pairs. -/
theorem exists_pairs {α β γ : Type} {f : β → γ} {images : List (α × γ)} {values : List β}
    (h : images.map Prod.snd = values.map f) :
    ∃ pairs : List (α × β), pairs.map Prod.snd = values ∧ pairs.map (Prod.map id f) = images := by
  induction images generalizing values with
  | nil =>
    obtain rfl := List.map_eq_nil_iff.1 h.symm
    exact ⟨[], rfl, rfl⟩
  | cons image images ih =>
    obtain ⟨value, values, rfl, hvalue, hvalues⟩ := List.map_eq_cons_iff.1 h.symm
    obtain ⟨pairs, rfl, rfl⟩ := ih hvalues.symm
    exact ⟨(image.1, value) :: pairs, rfl, by rw [List.map_cons, Prod.map, hvalue]; rfl⟩

/-- The walk of a tree with the path of each visit. -/
theorem exists_sites (root : SyntaxTree) :
    ∃ sites : List (List Nat × Visit), sites.map Prod.snd = root.walk ∧
      sites.map (Prod.map id Visit.toNode) = root.toNode.sites :=
  exists_pairs (root.toNode.map_sites.trans root.walk_toNode)

/-! ## Heights -/

/-- A tree that is built is laid out as a node that is built. -/
theorem toNode_build (span : Span) (kind : NodeKind SyntaxTree) :
    (build span kind).toNode = .build kind.form span (kind.children.map toNode) := by
  rw [toNode_eq, build, Node.build, List.foldr_map]
  simp only [toNode_height]

/-- A tree that was built has a layout that was assembled. -/
theorem Built.assembled_toNode (h : root.Built) : root.toNode.Assembled := by
  induction h with
  | @intro span kind _ ih =>
    rw [toNode_build]
    refine .intro _ _ fun n hn => ?_
    obtain ⟨child, hchild, rfl⟩ := List.mem_map.1 hn
    rw [NodeKind.children_eq_fields] at hchild
    exact ih child hchild

/-! ## Sites -/

section Sites

variable {sites : List (List Nat × Visit)}
  (hsites : sites.map (Prod.map id Visit.toNode) = root.toNode.sites)

include hsites

/-- The sites of a tree are what its paths lead to, each in the context of the layout. -/
theorem mem_sites_iff {visit : Visit} :
    (path, visit) ∈ sites ↔
      root.descend? path = some visit.tree ∧ visit.context = root.toNode.contextAt path := by
  have hinjective : Function.Injective (Prod.map (id : List Nat → List Nat) Visit.toNode) :=
    Function.injective_id.prodMap Visit.toNode_injective
  rw [← List.mem_map_of_injective hinjective, hsites, Prod.map_apply, id, Node.mem_sites_iff,
    descend?_toNode]
  constructor
  · rintro ⟨n, hn, hvisit⟩
    obtain ⟨tree, htree, rfl⟩ := Option.map_eq_some_iff.1 hn
    obtain ⟨heq, hcontext⟩ := ScriptLint.Visit.mk.inj hvisit
    rw [toNode_injective heq]
    exact ⟨htree, hcontext⟩
  · rintro ⟨htree, hcontext⟩
    exact ⟨visit.tree.toNode, by rw [htree]; rfl, by rw [Visit.toNode, hcontext]⟩

/-- The context at a path describes the chain of the trees above it. -/
theorem exists_chain {visit : Visit} (h : (path, visit) ∈ sites) :
    ∃ chain : List SyntaxTree, chain.length = path.length ∧
      (∀ depth above, chain[depth]? = some above → root.At (path.take depth) above) ∧
      visit.context.Describes (chain.map fun above => above.kind.type) := by
  obtain ⟨htree, hcontext⟩ := (mem_sites_iff hsites).1 h
  obtain ⟨hlength, hchain⟩ := ancestors_reverse htree
  refine ⟨(root.ancestors path).reverse, by rw [List.length_reverse, hlength], hchain, ?_⟩
  rw [hcontext, Node.contextAt, ancestors_toNode, List.map_map, List.map_reverse]
  have htypes : Node.type ∘ toNode = fun above => above.kind.type := funext toNode_type
  rw [htypes]
  exact Context.describes_enterAll _

/-- The walk of a subtree is a slice of the walk of the tree: the sites at and below its path. -/
theorem exists_slice (h : root.descend? path = some tree) :
    ∃ before slice after, sites = before ++ slice ++ after ∧
      (∀ site ∈ slice, path <+: site.1) ∧ (∀ site ∈ before ++ after, ¬ path <+: site.1) ∧
      tree.walk = slice.map fun site => site.2.inner path.length := by
  have hnode : root.toNode.descend? path = some tree.toNode := by rw [descend?_toNode, h]; rfl
  obtain ⟨_, _, _, hsplit, hslice, hother, hinner⟩ := Node.exists_walk_slice hnode
  obtain ⟨_, after, rfl, hfront, rfl⟩ := List.map_eq_append_iff.1 (hsites.trans hsplit)
  obtain ⟨before, slice, rfl, rfl, rfl⟩ := List.map_eq_append_iff.1 hfront
  rw [← List.map_append, List.forall_mem_map] at hother
  rw [List.forall_mem_map] at hslice
  refine ⟨before, slice, after, rfl, hslice, hother, ?_⟩
  refine List.map_injective_iff.2 Visit.toNode_injective ?_
  rw [← walk_toNode, hinner, List.map_map, List.map_map]
  rfl

end Sites

/-- A tree of which every node was built is one level higher than the longest chain in it. -/
theorem Built.height_eq (h : root.Built) :
    (∀ visit ∈ root.walk, visit.context.size < root.height) ∧
      ∃ visit ∈ root.walk, root.height = visit.context.size + 1 := by
  have hlt := h.assembled_toNode.size_lt_height .root
  have hdeepest := h.assembled_toNode.exists_deepest .root
  rw [walkIn_toNode, toNode_height, Context.size, Nat.zero_add] at hlt hdeepest
  rw [List.forall_mem_map] at hlt
  obtain ⟨_, hmem, hheight⟩ := hdeepest
  obtain ⟨visit, hvisit, rfl⟩ := List.mem_map.1 hmem
  exact ⟨hlt, visit, hvisit, hheight⟩

end SyntaxTree

/-- The walk of a tree goes through all that occurs in it, each occurrence once, in the order of the
paths: parents before their parts, and parts in the order of the fields. Each visit is made in the
context of the chain of trees above it, however the context is asked. The visits through a path
follow on each other and are the walk of the tree there, in contexts that start at the root of the
whole instead. A tree of which every node was built is one level higher than its longest chain. The
walk of the layout of a tree is the same walk. -/
theorem walk_is_preorder (root : SyntaxTree) :
    ∃ sites : List (List Nat × SyntaxTree.Visit),
      (sites.map Prod.snd = root.walk ∧
        sites.Pairwise (fun site site' => Path.Before site.1 site'.1) ∧
        ∀ path tree, root.At path tree ↔ ∃ context, (path, ⟨tree, context⟩) ∈ sites) ∧
      (∀ path visit, (path, visit) ∈ sites →
        ∃ chain : List SyntaxTree, chain.length = path.length ∧
          (∀ depth above, chain[depth]? = some above → root.At (path.take depth) above) ∧
          visit.context.Describes (chain.map fun above => above.kind.type)) ∧
      (∀ path tree, root.At path tree →
        ∃ before slice after, sites = before ++ slice ++ after ∧
          (∀ site ∈ slice, path <+: site.1) ∧ (∀ site ∈ before ++ after, ¬ path <+: site.1) ∧
          tree.walk = slice.map fun site => site.2.inner path.length) ∧
      (root.Built → (∀ visit ∈ root.walk, visit.context.size < root.height) ∧
        ∃ visit ∈ root.walk, root.height = visit.context.size + 1) ∧
      root.toNode.walk = root.walk.map SyntaxTree.Visit.toNode := by
  obtain ⟨sites, hwalk, hsites⟩ := root.exists_sites
  refine ⟨sites, ⟨hwalk, ?_, fun path tree => ?_⟩, ?_, ?_, SyntaxTree.Built.height_eq,
    root.walk_toNode⟩
  · have hascending := root.toNode.sites_ascending
    rwa [← hsites, List.pairwise_map] at hascending
  · rw [SyntaxTree.at_iff]
    constructor
    · exact fun h => ⟨_, (SyntaxTree.mem_sites_iff hsites).2 ⟨h, rfl⟩⟩
    · rintro ⟨context, hmem⟩
      exact ((SyntaxTree.mem_sites_iff hsites).1 hmem).1
  · exact fun path visit => SyntaxTree.exists_chain hsites
  · exact fun path tree hat => SyntaxTree.exists_slice hsites (SyntaxTree.at_iff.1 hat)

end ScriptLint
