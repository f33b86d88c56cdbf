import Mathlib.Data.List.Forall2
import ScriptLint.Grammar.Cursor

/-!
# What is left without places

Tokens, trees and violations without the places they hold. Trees are alike if they differ in places
only: they have the same form and the same height, and their children are alike.
-/

namespace ScriptLint

/-- The span of what has no place of its own. -/
def Span.nowhere : Span := ⟨.origin, .origin⟩

namespace Token

/-- The token of a kind, with a value, that has no place. -/
def nowhere (kind : TokenKind) (value : TokenValue) : Token := ⟨kind, value, .nowhere⟩

/-- A token without its place. -/
def unlocated (t : Token) : Token := .nowhere t.kind t.value

/-- A token keeps its kind without its place. -/
theorem kind_comp_unlocated : Token.kind ∘ Token.unlocated = Token.kind := rfl

end Token

/-- A violation without its place. -/
def SyntaxError.unlocated : SyntaxError → SyntaxError
  | .unexpectedToken found expected _ => .unexpectedToken found expected .origin
  | .unexpectedEnd expected => .unexpectedEnd expected
  | .invalidAssignmentTarget _ => .invalidAssignmentTarget .origin
  | .missingCatchOrFinally _ => .missingCatchOrFinally .origin
  | .nestingTooDeep _ => .nestingTooDeep .origin

namespace Node

mutual
/-- A tree without the places of its nodes. -/
def unlocated : Node → Node
  | ⟨form, _, height, children⟩ => ⟨form, .nowhere, height, unlocatedAll children⟩

/-- Trees without the places of their nodes. -/
def unlocatedAll : List Node → List Node
  | [] => []
  | n :: ns => unlocated n :: unlocatedAll ns
end

theorem height_unlocated (n : Node) : n.unlocated.height = n.height := by
  cases n
  rw [unlocated]

theorem form_unlocated (n : Node) : n.unlocated.form = n.form := by
  cases n
  rw [unlocated]

theorem children_unlocated (n : Node) : n.unlocated.children = unlocatedAll n.children := by
  cases n
  rw [unlocated]

/-- Heights do not depend on places, so a node is built over its children without their places. -/
theorem unlocated_build (form : Form) (span : Span) (children : List Node) :
    (Node.build form span children).unlocated =
      .build form .nowhere (unlocatedAll children) := by
  have hheight : (unlocatedAll children).foldr (fun child tallest => max child.height tallest) 0 =
      children.foldr (fun child tallest => max child.height tallest) 0 := by
    induction children with
    | nil => rfl
    | cons child children ih =>
      rw [unlocatedAll, List.foldr_cons, List.foldr_cons, height_unlocated, ih]
  rw [build, unlocated, build, hheight]

/-- Lists of trees are equal without places if and only if their members are. -/
theorem unlocatedAll_eq_iff {ms ns : List Node} :
    unlocatedAll ms = unlocatedAll ns ↔
      List.Forall₂ (fun m n => m.unlocated = n.unlocated) ms ns := by
  induction ms generalizing ns with
  | nil => cases ns <;> simp [unlocatedAll]
  | cons m ms ih => cases ns <;> simp [unlocatedAll, ih]

end Node

/-- Trees are alike if they are equal without their places. -/
def Node.Alike (m n : Node) : Prop := m.unlocated = n.unlocated

namespace Node.Alike

variable {m n : Node}

/-- Trees that are alike have the same form at their roots. -/
theorem form (h : m.Alike n) : m.form = n.form := by
  rw [← form_unlocated, show m.unlocated = n.unlocated from h, form_unlocated]

/-- Trees that are alike are equally tall. -/
theorem height (h : m.Alike n) : m.height = n.height := by
  rw [← height_unlocated, show m.unlocated = n.unlocated from h, height_unlocated]

/-- The children of trees that are alike are alike, one by one. -/
theorem children (h : m.Alike n) : List.Forall₂ Node.Alike m.children n.children := by
  have hall : unlocatedAll m.children = unlocatedAll n.children := by
    rw [← children_unlocated, show m.unlocated = n.unlocated from h, children_unlocated]
  exact unlocatedAll_eq_iff.1 hall

/-- Nodes of one form over children that are alike. -/
theorem build {form form' : Form} {span span' : Span} {children children' : List Node}
    (hform : form = form') (hchildren : List.Forall₂ Node.Alike children children') :
    (Node.build form span children).Alike (.build form' span' children') := by
  show (Node.build _ _ _).unlocated = (Node.build _ _ _).unlocated
  rw [unlocated_build, unlocated_build, hform, unlocatedAll_eq_iff.2 hchildren]

end Node.Alike

end ScriptLint
