import ScriptLint.Grammar.Cursor

/-!
# Repetition

The two loops of the grammar: `collect` reads a list of items and `chain` extends a result as long
as it can be. A round of either takes at least one token, so the tokens ahead when a loop starts
are a budget of rounds that is never used up.
-/

namespace ScriptLint.Parser

open HasCursor

variable {α σ : Type} [HasCursor σ]

/-- Reads items until there is none, in at most one round more than `budget` has tokens. -/
def collectWithin (item : ParserOn σ (Option α)) (budget : List Token) : ParserOn σ (List α) := do
  match ← item with
  | none => return []
  | some a =>
    match budget with
    | [] => unexpected "end of list"
    | _ :: budget =>
      let others ← collectWithin item budget
      return a :: others

/-- Reads items until there is none. -/
def collect (item : ParserOn σ (Option α)) : ParserOn σ (List α) := fun s =>
  collectWithin item (cursor s).rest s

/-- Extends `a` until it cannot be, in at most one round more than `budget` has tokens. -/
def chainWithin (step : α → ParserOn σ (Option α)) (a : α) (budget : List Token) :
    ParserOn σ α := do
  match ← step a with
  | none => return a
  | some b =>
    match budget with
    | [] => unexpected "end of chain"
    | _ :: budget => chainWithin step b budget

/-- Extends `a` until it cannot be. -/
def chain (step : α → ParserOn σ (Option α)) (a : α) : ParserOn σ α := fun s =>
  chainWithin step a (cursor s).rest s

/-- Reads one or more items with commas between them. -/
def separated (item : ParserOn σ α) : ParserOn σ (List α) := do
  let first ← item
  let others ← collect (after? (.punctuator .comma) item)
  return first :: others

end ScriptLint.Parser
