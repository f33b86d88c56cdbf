/-!
# Patterns for names

A pattern is a text that describes names. What texts are patterns, and which names they match, is
left to an engine: it compiles a text to a search in names, or refuses it with a reason. All that is
said about linters holds with every engine.
-/

namespace ScriptLint

/-- What compiles patterns. -/
structure PatternEngine where
  /-- The search that a text stands for, or why it stands for none. -/
  compile : (source : String) → Except String (String → Bool)

/-- A pattern that has been compiled. -/
structure Pattern where
  source : String
  /-- Whether the pattern matches a name. -/
  isMatch : String → Bool

/-- The pattern with the given text. -/
def PatternEngine.pattern (engine : PatternEngine) (source : String) : Except String Pattern :=
  (engine.compile source).map fun isMatch => ⟨source, isMatch⟩

end ScriptLint
