import Std.Data.TreeMap
import ScriptLint.Tree.Walk

/-!
# Names of a script

The tables of the names that a tree declares and mentions. Each table leads from a name to the last
node of its kind in the order of the walk, so a later declaration takes the place of an earlier
one. The tables are sorted by name.
-/

namespace ScriptLint

/-- A table from names to nodes, sorted by name. -/
abbrev NameTable := Std.TreeMap String Node

/-- The names of a tree. -/
structure Symbols where
  /-- Variables, and functions under their names. -/
  vars : NameTable := ∅
  functions : NameTable := ∅
  /-- Names that are mentioned. -/
  identifiers : NameTable := ∅
  /-- Parameters, names of caught values, and names that functions have for themselves. -/
  parameters : NameTable := ∅

namespace Symbols

/-- The tables with a node entered. -/
def record (symbols : Symbols) (n : Node) : Symbols :=
  match n.form with
  | .variableDefinition name _ =>
    { symbols with vars := symbols.vars.insert name n }
  | .functionDeclaration name =>
    { symbols with
      vars := symbols.vars.insert name n
      functions := symbols.functions.insert name n }
  | .identifier name => { symbols with identifiers := symbols.identifiers.insert name n }
  | .formalParameter name
  | .catchClause name
  | .functionExpression (some name) =>
    { symbols with parameters := symbols.parameters.insert name n }
  | _ => symbols

/-- The names of a tree. -/
def ofTree (root : Node) : Symbols :=
  root.walk.foldl (fun symbols visit => symbols.record visit.node) {}

/-- Whether a variable, a function, a parameter or a caught value has the name. -/
def isDeclared (symbols : Symbols) (name : String) : Bool :=
  symbols.vars.contains name || symbols.parameters.contains name

/-- Whether the name is mentioned. -/
def isReferenced (symbols : Symbols) (name : String) : Bool :=
  symbols.identifiers.contains name

/-- The declaration of the function with the name. -/
def function? (symbols : Symbols) (name : String) : Option Node :=
  symbols.functions[name]?

end Symbols

end ScriptLint
