import ScriptLint.Source.Position

/-!
# Violations of the grammar

Reading a script stops at its first violation, which is one of these.
-/

namespace ScriptLint

/-- Why a script has no tree. -/
inductive SyntaxError where
  /-- A token stands where something else was expected. -/
  | unexpectedToken (found expected : String) (position : Position)
  /-- The script ends where something was expected. -/
  | unexpectedEnd (expected : String)
  /-- The operand that starts at `position` cannot be stored into. -/
  | invalidAssignmentTarget (position : Position)
  /-- The `try` at `position` has neither a handler nor a finalizer. -/
  | missingCatchOrFinally (position : Position)
  /-- What starts at `position` is nested too deeply or is too tall a tree. -/
  | nestingTooDeep (position : Position)
deriving DecidableEq, Repr

/-- A violation as it is reported. -/
def SyntaxError.message : SyntaxError → String
  | .unexpectedToken found expected position =>
    "Unexpected token " ++ found ++ " at (" ++ position.render ++ "), expected " ++ expected
  | .unexpectedEnd expected => "Unexpected end of program, expected " ++ expected
  | .invalidAssignmentTarget position =>
    "Invalid assignment target at (" ++ position.render ++ ")"
  | .missingCatchOrFinally position =>
    "Missing catch or finally after try at (" ++ position.render ++ ")"
  | .nestingTooDeep position => "Nesting too deep at (" ++ position.render ++ ")"

end ScriptLint
