import ScriptLint.Tree.Node

/-!
# Walking a tree

The walk of a tree is the list of its nodes in the order in which they start in the source, parents
before their children, each with its ancestors. The ancestors are a chain of frames. A frame is
added where the walk goes down and points to the frames above it, so the subtrees of one node share
the frames of what is above them. Where a walk starts there are no ancestors.
-/

namespace ScriptLint

/-- The ancestors of a node: the frame of the closest one, with those of the others behind it. -/
inductive Context where
  /-- There is no ancestor. -/
  | root
  /-- A frame has the type of an ancestor and the number of frames from it upwards. -/
  | frame (type : NodeType) (depth : Nat) (above : Context)
deriving DecidableEq, Repr

namespace Context

/-- The number of ancestors, as the closest frame has it. -/
def size : Context → Nat
  | .root => 0
  | .frame _ depth _ => depth

/-- The context of the children of a node of type `type`. -/
def enter (context : Context) (type : NodeType) : Context :=
  .frame type (context.size + 1) context

/-- Whether there is no ancestor. -/
def isRoot : Context → Bool
  | .root => true
  | .frame .. => false

/-- The type of the closest ancestor. -/
def parent? : Context → Option NodeType
  | .root => none
  | .frame type _ _ => some type

/-- The types of the ancestors, the closest first. -/
def ancestors : Context → List NodeType
  | .root => []
  | .frame type _ above => type :: above.ancestors

/-- Whether some ancestor has the given type. -/
def contains (context : Context) (type : NodeType) : Bool := context.ancestors.any (· == type)

/-- Whether some ancestor is a function. -/
def inFunction (context : Context) : Bool := context.ancestors.any NodeType.isFunction

/-- The types of the ancestors from the root downwards. -/
def path (context : Context) : List NodeType := context.ancestors.reverse

end Context

/-- A node as a walk meets it. -/
structure Visit where
  node : Node
  context : Context
deriving DecidableEq, Repr

mutual
/-- The visits of a tree whose root stands in `context`. -/
def Node.walkIn (context : Context) : Node → List Visit
  | ⟨form, span, height, children⟩ =>
    ⟨⟨form, span, height, children⟩, context⟩ :: walkAll (context.enter form.type) children
/-- The visits of several trees that stand in `context`, one after the other. -/
def walkAll (context : Context) : List Node → List Visit
  | [] => []
  | n :: ns => n.walkIn context ++ walkAll context ns
end

/-- The visits of a tree. -/
def Node.walk (root : Node) : List Visit := root.walkIn .root

/-- The node that a path of child numbers leads to. -/
def Node.descend? (root : Node) : (path : List Nat) → Option Node
  | [] => some root
  | i :: path => root.children[i]? >>= fun child => child.descend? path

end ScriptLint
