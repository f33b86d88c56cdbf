import ScriptLint.Pattern.Reader
import ScriptLint.Rule.Builtin

/-!
# Patterns without signs

An engine finds a word if it takes the word for a pattern that matches exactly the names that the
word is a part of (`PatternEngine.FindsWord`). This is all that is asked of an engine where the rule
about names has the pattern that it has by default.

The engine of regular expressions finds that word (`Regex.engine_findsWord`). Its search keeps the
places that a match may have got to; behind a word these are the ends of its occurrences
(`Regex.mem_advance_literal`).
-/

namespace ScriptLint

/-- `engine.FindsWord word` says that a word is a pattern for the names that it is a part of. -/
def PatternEngine.FindsWord (engine : PatternEngine) (word : String) : Prop :=
  ∃ isMatch, engine.compile word = .ok isMatch ∧
    ∀ name, isMatch name = true ↔ word.toList <:+: name.toList

/-- The pattern that a word is. -/
theorem PatternEngine.FindsWord.pattern_eq {engine : PatternEngine} {word : String}
    (h : engine.FindsWord word) :
    ∃ pattern : Pattern, engine.pattern word = .ok pattern ∧ pattern.source = word ∧
      ∀ name, pattern.isMatch name = true ↔ word.toList <:+: name.toList := by
  obtain ⟨isMatch, hcompile, hmatch⟩ := h
  exact ⟨⟨word, isMatch⟩, by rw [pattern, hcompile]; rfl, rfl, hmatch⟩

theorem CharSet.contains_single {c d : Char} : (CharSet.single c).contains d = true ↔ c = d := by
  simp only [single, contains, Bool.and_eq_true, decide_eq_true_eq]
  constructor
  · rintro ⟨hle, hge⟩
    exact Char.le_antisymm hle hge
  · rintro rfl
    exact ⟨Char.le_refl c, Char.le_refl c⟩

namespace Regex

/-- The expression for the characters of a word, one after the other. -/
def literal (word : List Char) : Regex :=
  word.foldr (fun c rest => .sequence (.char (.single c)) rest) .empty

/-- A character goes on from the places where it stands. -/
theorem mem_advance_single {c : Char} {chars : List Char} {places : List Nat} {place : Nat} :
    place ∈ (Regex.char (.single c)).advance chars.toArray places ↔
      ∃ start ∈ places, chars[start]? = some c ∧ place = start + 1 := by
  have hread (start : Nat) : chars[start]?.any (CharSet.single c).contains = true ↔
      chars[start]? = some c := by
    cases chars[start]? with
    | none => simp
    | some d => simp [CharSet.contains_single, eq_comm (a := c)]
  simp only [advance, List.mem_filterMap, List.getElem?_toArray, hread,
    Option.ite_none_right_eq_some, Option.some.injEq, eq_comm (a := place)]

/-- A word stands at a place if its first character does and the others stand behind it. -/
theorem cons_prefix_drop_iff {c : Char} {word chars : List Char} {start : Nat} :
    c :: word <+: chars.drop start ↔
      chars[start]? = some c ∧ word <+: chars.drop (start + 1) := by
  rw [List.drop_eq_getElem?_toList_append]
  cases hread : chars[start]? with
  | none =>
    have hdrop : chars.drop (start + 1) = [] :=
      List.drop_eq_nil_of_le (Nat.le_succ_of_le (List.getElem?_eq_none_iff.1 hread))
    simp [hdrop]
  | some d => simp [eq_comm]

/-- A word leads from the places where it stands to the places behind it. -/
theorem mem_advance_literal {word chars : List Char} {places : List Nat} {place : Nat} :
    place ∈ (literal word).advance chars.toArray places ↔
      ∃ start ∈ places, word <+: chars.drop start ∧ place = start + word.length := by
  induction word generalizing places with
  | nil => simp [literal, advance]
  | cons c word ih =>
    show place ∈ (literal word).advance _ ((Regex.char (.single c)).advance _ places) ↔ _
    rw [ih]
    constructor
    · rintro ⟨mid, hmid, hword, rfl⟩
      obtain ⟨start, hstart, hread, rfl⟩ := mem_advance_single.1 hmid
      refine ⟨start, hstart, cons_prefix_drop_iff.2 ⟨hread, hword⟩, ?_⟩
      rw [List.length_cons, Nat.add_assoc, Nat.add_comm 1]
    · rintro ⟨start, hstart, hword, rfl⟩
      obtain ⟨hread, hword⟩ := cons_prefix_drop_iff.1 hword
      refine ⟨start + 1, mem_advance_single.2 ⟨start, hstart, hread, rfl⟩, hword, ?_⟩
      rw [List.length_cons, Nat.add_assoc, Nat.add_comm 1]

/-- A word matches exactly the texts that it is a part of. -/
theorem isMatch_literal {word chars : List Char} :
    (literal word).isMatch chars.toArray = true ↔ word <:+: chars := by
  rw [isMatch, Bool.not_eq_true', List.isEmpty_eq_false_iff_exists_mem]
  simp only [mem_advance_literal, List.mem_range, List.size_toArray]
  rw [List.infix_iff_prefix_suffix]
  constructor
  · rintro ⟨_, start, _, hword, _⟩
    exact ⟨chars.drop start, hword, List.drop_suffix start chars⟩
  · rintro ⟨text, hword, hsuffix⟩
    rw [List.suffix_iff_eq_drop.1 hsuffix] at hword
    exact ⟨_, _, Nat.lt_succ_of_le (Nat.sub_le ..), hword, rfl⟩

/-- A text that is read as a pattern compiles to the search for it. -/
theorem engine_compile {source : String} {regex : Regex} (h : parse? source = some regex) :
    engine.compile source = .ok fun name => regex.isMatch name.toList.toArray := by
  simp only [engine, h]

/-- The default pattern is read as a word. -/
theorem parse?_defaultNamePattern :
    parse? Rule.defaultNamePattern = some (.literal Rule.defaultNamePattern.toList) := by
  decide +kernel

/-- The engine of regular expressions finds the word that names are searched for by default. -/
theorem engine_findsWord : engine.FindsWord Rule.defaultNamePattern := by
  exact ⟨_, engine_compile parse?_defaultNamePattern, fun name => isMatch_literal⟩

end Regex

end ScriptLint
