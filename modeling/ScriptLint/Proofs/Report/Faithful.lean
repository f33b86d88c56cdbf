import ScriptLint.Proofs.Json.Writer
import ScriptLint.Report.Basic

/-!
# Reports are recovered from their text

A report carries no mark of its kind in JSON: an entry is told apart by its keys. `Report.ofJson?`
reads an entry by them, in whatever order they stand. Both layouts of a list of reports are texts
of the one value that lists its entries, and the list is read back from that value
(`renderReports_faithful`).
-/

namespace ScriptLint

/-- The text of an object that has a message and nothing else. -/
def messageOf? : Json → Option String
  | .object [(key, .string message)] => if key = "message" then some message else none
  | _ => none

namespace Report

/-- The entry with the given fields. The messages of a rule have the two keys `checker` and
`errors`, and a failure has a message only. -/
def ofFields? (fields : List (String × Json)) : Option Report :=
  match fields.length, fields.lookup "checker", fields.lookup "errors" with
  | 2, some (.string checker), some (.array errors) =>
    (errors.mapM messageOf?).map (.findings checker)
  | _, _, _ => (messageOf? (.object fields)).map .failure

/-- The entry that a JSON value describes. -/
def ofJson? : Json → Option Report
  | .object fields => ofFields? fields
  | _ => none

/-- The entries that a JSON value lists. -/
def listOfJson? : Json → Option (List Report)
  | .array items => items.mapM ofJson?
  | _ => none

end Report

/-! ## Entries -/

theorem messageOf?_messageJson (message : String) :
    messageOf? (messageJson message) = some message := rfl

/-- The messages of an entry are found again in its object. -/
theorem mapM_messageOf? (messages : List String) :
    (messages.map messageJson).mapM messageOf? = some messages := by
  induction messages with
  | nil => rfl
  | cons message messages ih => simp [messageOf?_messageJson, ih]

/-- A message is an object with one field, which no duplicate can replace. -/
theorem settle_messageJson (message : String) :
    (messageJson message).settle = messageJson message := by
  simp [messageJson, Json.settle, Json.settleFields]

namespace Report

/-- An entry is found again in its object, for either kind of entry. -/
theorem ofJson?_toJson (r : Report) : ofJson? r.toJson = some r := by
  cases r with
  | findings checker messages =>
    have hchecker : List.lookup "checker" [("checker", Json.string checker),
        ("errors", .array (messages.map messageJson))] = some (.string checker) := rfl
    have herrors : List.lookup "errors" [("checker", Json.string checker),
        ("errors", .array (messages.map messageJson))] =
          some (.array (messages.map messageJson)) := rfl
    rw [toJson, ofJson?, ofFields?, hchecker, herrors]
    simp only [List.length_cons, List.length_nil, mapM_messageOf?, Option.map_some]
  | failure message => rfl

/-- The entries are found again in the list of their objects. -/
theorem listOfJson?_map_toJson (reports : List Report) :
    listOfJson? (.array (reports.map toJson)) = some reports := by
  rw [listOfJson?]
  induction reports with
  | nil => rfl
  | cons r reports ih => simp [ofJson?_toJson, ih]

/-- No number is lost in an entry, because there is none. -/
theorem settle_toJson (r : Report) : r.toJson.settle = r.toJson := by
  cases r with
  | findings checker messages =>
    simp [toJson, Json.settle, Json.settleFields, Json.settleItems_eq_map, settle_messageJson]
  | failure message => exact settle_messageJson message

end Report

/-! ## Lists of entries -/

/-- No object of an entry has a field twice, so a reader keeps all of them. -/
theorem settle_reports (reports : List Report) :
    (Json.array (reports.map Report.toJson)).settle = .array (reports.map Report.toJson) := by
  simp [Json.settle, Json.settleItems_eq_map, Report.settle_toJson]

/-- What is printed is a text of the list of entries, in both layouts. -/
theorem padded_renderReports (layout : JsonLayout) (reports : List Report) :
    Json.Padded (.array (reports.map Report.toJson)) (renderReports layout reports).toList := by
  have h := Json.padded_render layout (.array (reports.map Report.toJson))
  rwa [settle_reports] at h

/-- The text of a list of reports, in either layout, is a JSON text. It has one value, which the
reader finds and which does not depend on the layout. The list is recovered from that value by the
keys of its entries, so two lists never have the same text, not even in different layouts. -/
theorem renderReports_faithful (reports : List Report) :
    (∀ layout value, Json.Padded value (renderReports layout reports).toList ↔
      value = .array (reports.map Report.toJson)) ∧
    (∀ layout, Json.parse? (renderReports layout reports) =
      some (.array (reports.map Report.toJson))) ∧
    Report.listOfJson? (.array (reports.map Report.toJson)) = some reports ∧
    ∀ layout layout' others, renderReports layout' others = renderReports layout reports →
      others = reports := by
  refine ⟨fun layout value => ⟨fun h => ?_, ?_⟩, fun layout => ?_,
    Report.listOfJson?_map_toJson reports, fun layout layout' others htext => ?_⟩
  · exact h.unique (padded_renderReports layout reports)
  · rintro rfl
    exact padded_renderReports layout reports
  · have hread := Json.parse?_render layout (.array (reports.map Report.toJson))
    rwa [settle_reports] at hread
  · -- both texts have one value, and the list is read from it
    have hvalue : Json.array (others.map Report.toJson) = .array (reports.map Report.toJson) :=
      (padded_renderReports layout' others).unique (htext ▸ padded_renderReports layout reports)
    have hlist := Report.listOfJson?_map_toJson others
    rw [hvalue, Report.listOfJson?_map_toJson] at hlist
    exact (Option.some.inj hlist).symm

end ScriptLint
