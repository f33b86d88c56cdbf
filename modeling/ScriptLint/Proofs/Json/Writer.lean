import ScriptLint.Proofs.Json.Accepts
import ScriptLint.Proofs.Json.Numbers

/-!
# Written values are read back

Every value is written as a text of the grammar, in either layout (`spells_write`). What is read
from it is the value itself, except that a number that is not finite has become `null`
(`Json.settle`, `parse?_render`). The layout is white space outside of strings and so does not
change what is read.
-/

namespace ScriptLint.Json

mutual
/-- The value that the text of a value stands for: numbers that are not finite are lost. -/
def settle : Json → Json
  | .null => .null
  | .bool b => .bool b
  | .integer n => .integer n
  | .real x => if x.isFinite then .real x else .null
  | .string s => .string s
  | .array items => .array (settleItems items)
  | .object fields => .object (settleFields fields)
/-- The items that the texts of items stand for. -/
def settleItems : List Json → List Json
  | [] => []
  | item :: items => item.settle :: settleItems items
/-- The fields that the texts of fields stand for. -/
def settleFields : List (String × Json) → List (String × Json)
  | [] => []
  | (key, value) :: fields => (key, value.settle) :: settleFields fields
end

theorem settleItems_eq_map (items : List Json) : settleItems items = items.map settle := by
  induction items with
  | nil => rw [settleItems, List.map_nil]
  | cons item items ih => rw [settleItems, ih, List.map_cons]

/-! ## Strings -/

/-- A control character as four digits. -/
theorem numberOfDigits_control {n : Nat} (h : n < 0x20) :
    ['0', '0', hexDigit (n / 16), hexDigit (n % 16)].all (isDigitIn 16) = true ∧
      numberOfDigits 16 ['0', '0', hexDigit (n / 16), hexDigit (n % 16)] = n := by
  decide +revert

theorem charText_escape (c : Char) : CharText c (escape c) := by
  rw [escape]
  split_ifs with hquote hbackslash hb hf hn hr ht hcontrol
  · exact .short (by simp [shortEscapes, hquote])
  · exact .short (by simp [shortEscapes, hbackslash])
  · exact .short (by simp [shortEscapes, hb])
  · exact .short (by simp [shortEscapes, hf])
  · exact .short (by simp [shortEscapes, hn])
  · exact .short (by simp [shortEscapes, hr])
  · exact .short (by simp [shortEscapes, ht])
  · obtain ⟨hhex, hcode⟩ := numberOfDigits_control hcontrol
    have h := CharText.unit ⟨_, rfl, hhex⟩ (by rw [Hex4.code, hcode]; omega)
    rwa [Hex4.code, hcode, Char.ofNat_toNat] at h
  · exact .plain hquote hbackslash (Nat.le_of_not_lt hcontrol)

theorem charsText_flatMap (cs : List Char) : CharsText cs (cs.flatMap escape) := by
  induction cs with
  | nil => exact .nil
  | cons c cs ih => exact .cons (charText_escape c) ih

theorem spells_quote (s : String) : Spells (.string s) (quote s) := by
  have h := Spells.string (charsText_flatMap s.toList)
  rwa [String.ofList_toList] at h

/-! ## Values -/

theorem blank_nil : Blank [] := fun _ hc => by cases hc

theorem blank_newline (layout : JsonLayout) (level : Nat) : Blank (layout.newline level) := by
  cases layout with
  | compact => exact blank_nil
  | indented =>
    intro c hc
    obtain rfl | hmem := List.mem_cons.1 hc
    · decide
    · rw [List.eq_of_mem_replicate hmem]
      decide

/-- A field is written as a text of it. -/
theorem spellsField_write (layout : JsonLayout) (key : String) {v : Json} {b t b' : List Char}
    (hb : Blank b) (h : Spells v t) (hb' : Blank b') :
    SpellsField (key, v) (b ++ (quote key ++ (layout.colon ++ (t ++ b')))) := by
  have hkey := charsText_flatMap key.toList
  have hblank : ∃ blanks, Blank blanks ∧ layout.colon = ':' :: blanks := by
    cases layout with
    | compact => exact ⟨[], blank_nil, rfl⟩
    | indented => exact ⟨[' '], List.forall_mem_singleton.2 rfl, rfl⟩
  obtain ⟨blanks, hblanks, hcolon⟩ := hblank
  have hfield := SpellsField.mk hb hkey blank_nil ⟨hblanks, h, hb'⟩
  rw [String.ofList_toList] at hfield
  simpa [quote, hcolon] using hfield

mutual
/-- A value is written as a text of it. -/
theorem spells_write (layout : JsonLayout) (level : Nat) :
    (v : Json) → Spells v.settle (write layout level v)
  | .null => by
    rw [settle, write]
    exact .null
  | .bool true => by
    rw [settle, write]
    exact .boolTrue
  | .bool false => by
    rw [settle, write]
    exact .boolFalse
  | .integer n => by
    rw [settle, write]
    exact .number (numberText_toDigits n)
  | .real x => by
    rw [settle, write, realChars]
    split
    · next hfinite => exact .number (numberText_jsonChars hfinite)
    · exact .null
  | .string s => by
    rw [settle, write]
    exact spells_quote s
  | .array [] => by
    rw [settle, write, settleItems]
    exact .emptyArray blank_nil
  | .array (item :: items) => by
    have hitem := spells_write layout (level + 1) item
    have hitems := spellsItems_write layout (level + 1) (blank_newline layout level)
      (blank_newline layout (level + 1)) hitem items
    rw [settle, write, settleItems]
    simpa using Spells.array hitems
  | .object [] => by
    rw [settle, write, settleFields]
    exact .emptyObject blank_nil
  | .object ((key, value) :: fields) => by
    have hvalue := spells_write layout (level + 1) value
    have hfields := spellsFields_write layout (level + 1) (blank_newline layout level)
      (blank_newline layout (level + 1)) key hvalue fields
    rw [settle, write, settleFields]
    simpa using Spells.object hfields
/-- Further items of an array are written behind commas. -/
theorem spellsItems_write (layout : JsonLayout) (level : Nat) {b' : List Char} (hb' : Blank b')
    {v : Json} {b t : List Char} (hb : Blank b) (h : Spells v t) :
    (items : List Json) →
      SpellsItems (v :: settleItems items) (b ++ t ++ (writeItems layout level items ++ b'))
  | [] => by
    rw [settleItems, writeItems, List.nil_append, List.append_assoc]
    exact .one ⟨hb, h, hb'⟩
  | item :: items => by
    have hitem := spells_write layout level item
    have hitems := spellsItems_write layout level hb' (blank_newline layout level) hitem items
    rw [settleItems, writeItems]
    simpa using SpellsItems.more ⟨hb, h, blank_nil⟩ hitems
/-- Further fields of an object are written behind commas. -/
theorem spellsFields_write (layout : JsonLayout) (level : Nat) {b' : List Char} (hb' : Blank b')
    {v : Json} {b t : List Char} (hb : Blank b) (key : String) (h : Spells v t) :
    (fields : List (String × Json)) →
      SpellsFields ((key, v) :: settleFields fields)
        (b ++ quote key ++ layout.colon ++ t ++ (writeFields layout level fields ++ b'))
  | [] => by
    rw [settleFields, writeFields]
    simpa using SpellsFields.one (spellsField_write layout key hb h hb')
  | (key', value) :: fields => by
    have hvalue := spells_write layout level value
    have hfields := spellsFields_write layout level hb' (blank_newline layout level) key' hvalue
      fields
    rw [settleFields, writeFields]
    simpa using SpellsFields.more (spellsField_write layout key hb h blank_nil) hfields
end

/-- The text of a value, as the grammar sees it. -/
theorem padded_render (layout : JsonLayout) (v : Json) :
    Padded v.settle (render layout v).toList := by
  have h := Padded.mk blank_nil (spells_write layout 0 v) blank_nil
  rwa [List.nil_append, List.append_nil, ← String.toList_ofList (l := write layout 0 v)] at h

/-- What is written is read back, but for numbers that are not finite. -/
theorem parse?_render (layout : JsonLayout) (v : Json) :
    parse? (render layout v) = some v.settle :=
  parse?_eq_some_iff.2 (padded_render layout v)

end ScriptLint.Json
