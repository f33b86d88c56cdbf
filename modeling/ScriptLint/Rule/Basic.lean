import ScriptLint.Report.Basic
import ScriptLint.Symbols

/-!
# Rules

A rule looks at the nodes of one type. `runRules` walks a tree once and hands each node to the rules
that are aimed at it, so the entries come in the order of the walk and, for one node, in the order
of the rules. A rule that breaks down at a node is reported there and disturbs no other rule.
-/

namespace ScriptLint

/-- How a rule broke down. -/
inductive Breakdown where
  | because (reason : String)
  | unexplained
deriving DecidableEq, Repr

/-- The reason of a breakdown as it is reported. -/
def Breakdown.reason : Breakdown → String
  | .because reason => reason
  | .unexplained => "unknown panic"

/-- A check of the nodes of one type. -/
structure Rule where
  name : String
  target : NodeType
  description : String
  /-- The messages about a node, given the names of its script and its ancestors. -/
  check : Node → Symbols → Context → Except Breakdown (List String)

namespace Rule

/-- What a rule says about a node. -/
def messagesAt (rule : Rule) (symbols : Symbols) (visit : Visit) : List String :=
  match rule.check visit.node symbols visit.context with
  | .ok messages => messages
  | .error breakdown => ["Rule '" ++ rule.name ++ "' failed: " ++ breakdown.reason]

/-- The entry of a rule for a node, if the rule is aimed at it and says something. -/
def reportAt? (rule : Rule) (symbols : Symbols) (visit : Visit) : Option Report :=
  if rule.target = visit.node.type then
    match rule.messagesAt symbols visit with
    | [] => none
    | messages => some (.findings rule.name messages)
  else none

end Rule

/-- The entries of the rules for a tree. -/
def runRules (root : Node) (symbols : Symbols) (rules : List Rule) : List Report :=
  root.walk.flatMap fun visit => rules.filterMap fun rule => rule.reportAt? symbols visit

end ScriptLint
