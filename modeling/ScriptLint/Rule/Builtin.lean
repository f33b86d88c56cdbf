import ScriptLint.Pattern.Engine
import ScriptLint.Rule.Basic

/-!
# Built-in rules

Five rules: names that nothing declares, declarations that nothing mentions, calls with the wrong
number of arguments, names that match a pattern, and `return` outside of functions.
-/

namespace ScriptLint

namespace Rule

/-- Reports names that are mentioned but not declared. -/
def unknownIdentifier : Rule where
  name := "Unknown identifier"
  target := .identifier
  description := "Reports identifiers that no var, function, parameter or catch clause declares"
  check n symbols _ :=
    match n.form with
    | .identifier name =>
      if symbols.isDeclared name then .ok []
      else .ok ["Unknown identifier: '" ++ name ++ "' at (" ++ n.start.render ++ ")."]
    | _ => .ok []

/-- The entries of a table whose names are not mentioned. -/
def unreferenced (symbols : Symbols) (table : NameTable) : List (String × Node) :=
  table.toList.filter fun entry => !symbols.isReferenced entry.1

/-- The message about a declaration that is not mentioned. -/
def unusedMessage (what : String) (entry : String × Node) : String :=
  "Unused " ++ what ++ ": '" ++ entry.1 ++ "' at (" ++ entry.2.start.render ++ ")."

/-- Reports variables and functions that are not mentioned: first the names that no function has,
then the functions. -/
def unusedIdentifier : Rule where
  name := "Unused identifier"
  target := .program
  description := "Reports variables and functions that are declared but never referenced"
  check _ symbols _ :=
    let vars := (unreferenced symbols symbols.vars).filter fun entry =>
      !symbols.functions.contains entry.1
    .ok (vars.map (unusedMessage "var") ++
      (unreferenced symbols symbols.functions).map (unusedMessage "function"))

/-- Reports calls of declared functions with too few or too many arguments. -/
def wrongArgumentCount : Rule where
  name := "Wrong number of arguments"
  target := .callExpression
  description :=
    "Reports calls to declared functions with a different number of arguments than parameters"
  check n symbols _ :=
    match n.form, n.children.head?.map Node.form with
    | .callExpression, some (.identifier name) =>
      match (symbols.function? name).bind Node.parameterCount?, n.argumentCount? with
      | some expected, some given =>
        if expected = given then .ok []
        else
          .ok ["Function '" ++ name ++ "' expects " ++ toString expected ++ " arguments, " ++
            toString given ++ " given at (" ++ n.start.render ++ ")."]
      | _, _ => .ok []
    | _, _ => .ok []

/-- The name of the rule about patterns. -/
def namingName : String := "No funny names"

/-- Reports variables whose names match a pattern. -/
def naming (pattern : Pattern) : Rule where
  name := namingName
  target := .variableDefinition
  description := "Reports variable names matching the configured pattern"
  check n _ _ :=
    match n.form with
    | .variableDefinition name _ =>
      if pattern.isMatch name then
        .ok ["Disallowed name: '" ++ name ++ "' matches /" ++ pattern.source ++ "/ at (" ++
          n.start.render ++ ")."]
      else .ok []
    | _ => .ok []

/-- Reports `return` outside of functions. -/
def returnOutsideFunction : Rule where
  name := "Return outside function"
  target := .returnStatement
  description := "Reports return statements that are not inside a function body"
  check n _ context :=
    if context.inFunction then .ok []
    else .ok ["Return outside function at (" ++ n.start.render ++ ")."]

/-- The pattern of names that are reported unless the settings give another. -/
def defaultNamePattern : String := "fun"

/-- The built-in rules in the order in which they report. The rule about names is there if the
engine takes the pattern that it has by default. -/
def builtin (engine : PatternEngine) : List Rule :=
  [unknownIdentifier, unusedIdentifier, wrongArgumentCount] ++
    (engine.pattern defaultNamePattern).toOption.toList.map naming ++ [returnOutsideFunction]

end Rule

end ScriptLint
