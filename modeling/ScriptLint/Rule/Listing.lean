import ScriptLint.Rule.Builtin

/-!
# Lists of rules

The list of rules that the command line shows: for each rule its name, the type of the nodes it
looks at, and what it does.
-/

namespace ScriptLint

/-- What a list shows of a rule. -/
structure RuleInfo where
  name : String
  target : NodeType
  description : String
deriving DecidableEq, Repr

/-- What a list shows of a rule. -/
def Rule.info (rule : Rule) : RuleInfo := ⟨rule.name, rule.target, rule.description⟩

/-- A text filled up with blanks to `width` characters. -/
def padRight (width : Nat) (text : String) : String :=
  text ++ String.ofList (List.replicate (width - text.length) ' ')

/-- The lines of one rule. -/
def RuleInfo.render (width : Nat) (info : RuleInfo) : String :=
  "  " ++ padRight width info.name ++ "  [" ++ info.target.label ++ "]\n      " ++
    info.description ++ "\n"

/-- The text of a list of rules. The column of the names is as wide as the longest of them has bytes
in UTF-8. -/
def renderRuleList (infos : List RuleInfo) : String :=
  let width := infos.foldr (fun info widest => max info.name.utf8ByteSize widest) 0
  "BUILT-IN RULES\n\n" ++ String.join (infos.map (RuleInfo.render width)) ++
    "\nDisable a rule with --disable '<name>' or \"disabled_rules\" in a config file.\n"

end ScriptLint
