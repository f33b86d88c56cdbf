import ScriptLint.Proofs.Json.Writer
import ScriptLint.Settings

/-!
# Settings are read from their texts

Which JSON objects give which settings, said without the reader: `settings.Describes fields` says
that an object with these fields stands for the settings. There is at most one field for each
setting, in either order, and a field is left out only if its setting has the default.

The fields of an object are taken over one after the other (`foldlM_withField?_cons`), and what they
give together is what the object describes (`ofJson?_of_describes`, `describes_of_ofJson?`). The
texts of an object are those of the grammar of JSON, and nothing but white space follows them
(`Json.Padded.blank_of_object`).

Main statement: `settings_decoded`.
-/

namespace ScriptLint

namespace Settings

/-! ## Fields that describe settings -/

/-- Names of rules as a JSON value. -/
def rulesJson (rules : List String) : Json := .array (rules.map .string)

/-- A pattern as a JSON value. That there is none is written as `null`. -/
def patternJson : Option String → Json
  | none => .null
  | some pattern => .string pattern

/-- The fields that give one setting: a field with its value, or no field if it has its default. -/
inductive GivenBy {α : Type} (key : String) (toJson : α → Json) (unset : α) :
    α → List (String × Json) → Prop where
  | field (value : α) : GivenBy key toJson unset value [(key, toJson value)]
  | omitted : GivenBy key toJson unset unset []

/-- `settings.Describes fields` says that an object with the fields stands for the settings. -/
def Describes (settings : Settings) (fields : List (String × Json)) : Prop :=
  ∃ rules pattern, GivenBy "disabled_rules" rulesJson [] settings.disabledRules rules ∧
    GivenBy "name_pattern" patternJson none settings.namePattern pattern ∧
    (fields = rules ++ pattern ∨ fields = pattern ++ rules)

/-- A list of strings is read just if every item is one. -/
theorem mapM_stringOf?_eq_some_iff {items : List Json} {rules : List String} :
    items.mapM stringOf? = some rules ↔ items = rules.map .string := by
  induction items generalizing rules with
  | nil => cases rules <;> simp
  | cons item items ih =>
    cases item with
    | string s => cases rules <;> simp [stringOf?, Option.bind_eq_some_iff, ih, and_comm]
    | _ => cases rules <;> simp [stringOf?]

/-- Names of rules are read from a list of strings and from nothing else. -/
theorem disabledRulesOf?_eq_some_iff {v : Json} {rules : List String} :
    disabledRulesOf? v = some rules ↔ v = rulesJson rules := by
  cases v with
  | array items => simp [disabledRulesOf?, rulesJson, mapM_stringOf?_eq_some_iff]
  | _ => simp [disabledRulesOf?, rulesJson]

/-- A pattern is read from a string or from `null` and from nothing else. -/
theorem namePatternOf?_eq_some_iff {v : Json} {pattern : Option String} :
    namePatternOf? v = some pattern ↔ v = patternJson pattern := by
  cases v <;> cases pattern <;> simp [namePatternOf?, patternJson]

theorem withField?_rules (settings : Settings) (rules : List String) :
    settings.withField? ("disabled_rules", rulesJson rules) =
      some { settings with disabledRules := rules } := by
  rw [withField?, if_pos rfl, disabledRulesOf?_eq_some_iff.2 rfl, Option.map_some]

theorem withField?_pattern (settings : Settings) (pattern : Option String) :
    settings.withField? ("name_pattern", patternJson pattern) =
      some { settings with namePattern := pattern } := by
  have hkey : "name_pattern" ≠ "disabled_rules" := by decide
  rw [withField?, if_neg hkey, if_pos rfl, namePatternOf?_eq_some_iff.2 rfl, Option.map_some]

/-- A field is taken over only if it is one of the two and has a value for it. -/
theorem withField?_cases {settings settings' : Settings} {field : String × Json}
    (h : settings.withField? field = some settings') :
    (∃ rules, field = ("disabled_rules", rulesJson rules) ∧
      settings' = { settings with disabledRules := rules }) ∨
    ∃ pattern, field = ("name_pattern", patternJson pattern) ∧
      settings' = { settings with namePattern := pattern } := by
  obtain ⟨key, v⟩ := field
  rw [withField?] at h
  split at h
  · next hkey =>
    obtain ⟨rules, hrules, rfl⟩ := Option.map_eq_some_iff.1 h
    exact .inl ⟨rules, Prod.ext hkey (disabledRulesOf?_eq_some_iff.1 hrules), rfl⟩
  · split at h
    · next hkey =>
      obtain ⟨pattern, hpattern, rfl⟩ := Option.map_eq_some_iff.1 h
      exact .inr ⟨pattern, Prod.ext hkey (namePatternOf?_eq_some_iff.1 hpattern), rfl⟩
    · cases h

/-! ## Objects -/

/-- Fields that describe settings are decoded as them. -/
theorem ofJson?_of_describes {settings : Settings} {fields : List (String × Json)}
    (h : settings.Describes fields) : ofJson? (.object fields) = some settings := by
  obtain ⟨disabled, namePattern⟩ := settings
  obtain ⟨rules, pattern, hrules, hpattern, rfl | rfl⟩ := h <;> cases hrules <;> cases hpattern <;>
    simp [ofJson?, withField?_rules, withField?_pattern]

/-- The first field is taken over, and then the others. -/
theorem foldlM_withField?_cons {settings settings' : Settings} {field : String × Json}
    {fields : List (String × Json)}
    (h : (field :: fields).foldlM withField? settings = some settings') :
    (∃ rules, field = ("disabled_rules", rulesJson rules) ∧
      fields.foldlM withField? { settings with disabledRules := rules } = some settings') ∨
    ∃ pattern, field = ("name_pattern", patternJson pattern) ∧
      fields.foldlM withField? { settings with namePattern := pattern } = some settings' := by
  rw [List.foldlM_cons] at h
  obtain ⟨_, hfield, h⟩ := Option.bind_eq_some_iff.1 h
  obtain ⟨rules, rfl, rfl⟩ | ⟨pattern, rfl, rfl⟩ := withField?_cases hfield
  · exact .inl ⟨rules, rfl, h⟩
  · exact .inr ⟨pattern, rfl, h⟩

/-- Fields that are decoded describe what they are decoded as. -/
theorem describes_of_ofJson? {settings : Settings} {fields : List (String × Json)}
    (h : ofJson? (.object fields) = some settings) : settings.Describes fields := by
  rw [ofJson?] at h
  split at h
  case isFalse => cases h
  next hkeys =>
  -- a field whose key was there before is excluded, so there are at most two
  rcases fields with _ | ⟨first, fields⟩
  · cases h
    exact ⟨[], [], .omitted, .omitted, .inl rfl⟩
  obtain ⟨rules, rfl, hrest⟩ | ⟨pattern, rfl, hrest⟩ := foldlM_withField?_cons h
  · rcases fields with _ | ⟨second, fields⟩
    · cases hrest
      exact ⟨_, [], .field rules, .omitted, .inl rfl⟩
    obtain ⟨_, rfl, -⟩ | ⟨pattern, rfl, hmore⟩ := foldlM_withField?_cons hrest
    · simp at hkeys
    rcases fields with _ | ⟨third, fields⟩
    · cases hmore
      exact ⟨_, _, .field rules, .field pattern, .inl rfl⟩
    obtain ⟨_, rfl, -⟩ | ⟨_, rfl, -⟩ := foldlM_withField?_cons hmore <;> simp at hkeys
  · rcases fields with _ | ⟨second, fields⟩
    · cases hrest
      exact ⟨[], _, .omitted, .field pattern, .inl rfl⟩
    obtain ⟨rules, rfl, hmore⟩ | ⟨_, rfl, -⟩ := foldlM_withField?_cons hrest
    · rcases fields with _ | ⟨third, fields⟩
      · cases hmore
        exact ⟨_, _, .field rules, .field pattern, .inr rfl⟩
      obtain ⟨_, rfl, -⟩ | ⟨_, rfl, -⟩ := foldlM_withField?_cons hmore <;> simp at hkeys
    · simp at hkeys

/-- The only field there may be has the key and the value. -/
theorem GivenBy.field_eq {α : Type} {key : String} {toJson : α → Json} {unset value : α}
    {fields : List (String × Json)} (h : GivenBy key toJson unset value fields)
    {field : String × Json} (hfield : field ∈ fields) : field = (key, toJson value) := by
  cases h with
  | field => exact List.mem_singleton.1 hfield
  | omitted => cases hfield

namespace Describes

variable {settings : Settings} {fields : List (String × Json)}

/-- A field that describes settings is one of the two that they have. -/
theorem field_cases (h : settings.Describes fields) {field : String × Json}
    (hfield : field ∈ fields) :
    field = ("disabled_rules", rulesJson settings.disabledRules) ∨
      field = ("name_pattern", patternJson settings.namePattern) := by
  obtain ⟨rules, pattern, hrules, hpattern, hfields⟩ := h
  have hsplit : field ∈ rules ∨ field ∈ pattern := by
    obtain rfl | rfl := hfields
    · exact List.mem_append.1 hfield
    · exact (List.mem_append.1 hfield).symm
  obtain hmem | hmem := hsplit
  · exact .inl (hrules.field_eq hmem)
  · exact .inr (hpattern.field_eq hmem)

/-- No field is given twice. -/
theorem keys_nodup (h : settings.Describes fields) : (fields.map Prod.fst).Nodup := by
  have hread := ofJson?_of_describes h
  rw [ofJson?] at hread
  split at hread
  · assumption
  · cases hread

end Describes

/-! ## Texts -/

section Texts

variable {explain : String → String} {text : String} {fields : List (String × Json)}

/-- A text of an object is read as the settings that its fields describe. -/
theorem parse_object_eq_ok_iff (h : Json.Padded (.object fields) text.toList)
    {settings : Settings} : parse explain text = .ok settings ↔ settings.Describes fields := by
  rw [parse, Json.parse?_eq_some_iff.2 h, Option.bind_some]
  constructor
  · intro hok
    cases hread : ofJson? (.object fields) with
    | none =>
      rw [hread] at hok
      cases hok
    | some found =>
      rw [hread] at hok
      cases hok
      exact describes_of_ofJson? hread
  · intro hdescribes
    rw [ofJson?_of_describes hdescribes]

/-- A text that gives no settings is refused as a whole. -/
theorem parse_eq_error_iff {e : SettingsError} :
    parse explain text = .error e ↔
      (∀ settings, parse explain text ≠ .ok settings) ∧ e = .malformed (explain text) := by
  unfold parse
  cases (Json.parse? text).bind ofJson? <;> simp [eq_comm]

/-- An object is refused if it has a field of another name, two of one name, or no list of rules
where one is expected. -/
theorem parse_object_eq_malformed (h : Json.Padded (.object fields) text.toList)
    (hfault : (∃ field ∈ fields, field.1 ≠ "disabled_rules" ∧ field.1 ≠ "name_pattern") ∨
      ¬ (fields.map Prod.fst).Nodup ∨ ("disabled_rules", .null) ∈ fields) :
    parse explain text = .error (.malformed (explain text)) := by
  refine parse_eq_error_iff.2 ⟨fun settings hok => ?_, rfl⟩
  have hdescribes := (parse_object_eq_ok_iff h).1 hok
  obtain ⟨field, hfield, hrules, hpattern⟩ | hrepeated | hnull := hfault
  · obtain rfl | rfl := hdescribes.field_cases hfield
    · exact hrules rfl
    · exact hpattern rfl
  · exact hrepeated hdescribes.keys_nodup
  · obtain heq | heq := hdescribes.field_cases hnull
    · simp [rulesJson] at heq
    · simp at heq

/-- An object is refused if something follows it. -/
theorem parse_trailing_eq_malformed {front back : List Char}
    (h : Json.Padded (.object fields) front) (htext : text.toList = front ++ back)
    (hback : ¬ Json.Blank back) : parse explain text = .error (.malformed (explain text)) := by
  refine parse_eq_error_iff.2 ⟨fun settings hok => ?_, rfl⟩
  cases hread : Json.parse? text with
  | none =>
    rw [parse, hread] at hok
    cases hok
  | some v =>
    have hpadded := Json.parse?_eq_some_iff.1 hread
    rw [htext] at hpadded
    exact hback (h.blank_of_object hpadded)

end Texts

end Settings

/-- A text of a JSON object is read as settings exactly if the object describes them, in whatever
way the grammar of JSON writes its fields. A text is refused as malformed if it is that of an object
with a field of another name, with two fields of one name or with `null` for the list of rules, or
if something other than white space follows an object. How a refusal is explained makes no
difference. -/
theorem settings_decoded (explain : String → String) (text : String) :
    (∀ fields, Json.Padded (.object fields) text.toList →
      (∀ settings, Settings.parse explain text = .ok settings ↔ settings.Describes fields) ∧
      ((∃ field ∈ fields, field.1 ≠ "disabled_rules" ∧ field.1 ≠ "name_pattern") ∨
        ¬ (fields.map Prod.fst).Nodup ∨ ("disabled_rules", .null) ∈ fields →
        Settings.parse explain text = .error (.malformed (explain text)))) ∧
    ∀ fields front back, Json.Padded (.object fields) front → text.toList = front ++ back →
      ¬ Json.Blank back → Settings.parse explain text = .error (.malformed (explain text)) :=
  ⟨fun _ h => ⟨fun _ => Settings.parse_object_eq_ok_iff h, Settings.parse_object_eq_malformed h⟩,
    fun _ _ _ => Settings.parse_trailing_eq_malformed⟩

/-- Both fields, with escapes in the pattern and each field on a line of its own. -/
theorem settings_decoded_lines :
    Settings.parse (fun _ => "") (Json.render .indented (.object [("name_pattern", .string "\"\n"),
      ("disabled_rules", .array [.string "Unused identifier"])])) =
        .ok ⟨["Unused identifier"], some "\"\n"⟩ := by
  have hpadded := Json.padded_render .indented (.object [("name_pattern", .string "\"\n"),
    ("disabled_rules", .array [.string "Unused identifier"])])
  simp only [Json.settle, Json.settleFields, Json.settleItems] at hpadded
  refine ((settings_decoded _ _).1 _ hpadded).1 _ |>.2 ?_
  exact ⟨_, _, .field ["Unused identifier"], .field (some "\"\n"), .inr rfl⟩

end ScriptLint
