import YulPlus.Schema.Checked

/-!
# Checking what was built from fields

A value that was built as a record is checked field by field: under each name stands what was put
there (`find?_entriesOf`), so a check of a field is a check of that (`field_of_find`,
`required_of_find`). Open maps and lists of texts are checked to what they were built from. -/

namespace YulPlus

namespace Schema

variable {α : Type}

/-- The entries of a record whose field names are given as strings. -/
def entriesOf (entries : List (String × Value)) : List (Scalar × Value) :=
  entries.map fun entry ↦ (.text entry.1.toList, entry.2)

theorem fields_eq_map (entries : List (String × Value)) :
    Value.fields entries = .map (entriesOf entries) := by
  simp [Value.fields, Value.record, entriesOf, Function.comp_def]

theorem find?_entriesOf (name : String) (entries : List (String × Value)) :
    Value.find? name.toList (entriesOf entries) =
      (entries.find? fun entry ↦ entry.1 = name).map (·.2) := by
  have hname : ∀ other : String, other.toList = name.toList ↔ other = name :=
    fun _ ↦ String.toList_inj
  simp [Value.find?, entriesOf, List.find?_map, Function.comp_def, hname]

section

variable {wire plain : String} {entries : List (String × Value)} {check : Value → Checked α}
  {default a : α} {v : Value}

theorem single_eq (name : String) : FieldName.single name = .either name name := rfl

/-- A field under its first name. -/
theorem field_of_find (h : (entries.find? fun entry ↦ entry.1 = wire).map (·.2) = some v)
    (hcheck : check v = .valid a) :
    field (.either wire plain) default check (entriesOf entries) = .valid a := by
  have hfind : Value.find? wire.toList (entriesOf entries) = some v :=
    (find?_entriesOf wire entries).trans h
  simp [field, FieldName.find?, FieldName.either, hfind, hcheck, Checked.under]

/-- A field that has to be there, under its first name. -/
theorem required_of_find (h : (entries.find? fun entry ↦ entry.1 = wire).map (·.2) = some v)
    (hcheck : check v = .valid a) :
    required (.either wire plain) check (entriesOf entries) = .valid a := by
  have hfind : Value.find? wire.toList (entriesOf entries) = some v :=
    (find?_entriesOf wire entries).trans h
  simp [required, FieldName.find?, FieldName.either, hfind, hcheck, Checked.under]

/-- A field under neither name. -/
theorem field_of_absent (hwire : entries.find? (fun entry ↦ entry.1 = wire) = none)
    (hplain : entries.find? (fun entry ↦ entry.1 = plain) = none) :
    field (.either wire plain) default check (entriesOf entries) = .valid default := by
  have hfind : Value.find? wire.toList (entriesOf entries) = none := by
    rw [find?_entriesOf, hwire, Option.map_none]
  have hfind' : Value.find? plain.toList (entriesOf entries) = none := by
    rw [find?_entriesOf, hplain, Option.map_none]
  simp [field, FieldName.find?, FieldName.either, hfind, hfind']

end

theorem text_text (s : Text) : text (.text s) = .valid s := rfl

/-- An open map is checked to the entries that it was built from. -/
theorem mapOf_record (entries : List (Text × Value)) :
    mapOf anything (.record entries) = .valid entries := by
  rw [Value.record, mapOf]
  induction entries with
  | nil => rfl
  | cons entry entries ih =>
    rw [List.map_cons, Checked.all, ih]
    rfl

/-- A list of texts is checked to the texts. -/
theorem list_text (texts : List Text) :
    list text (.list (texts.map Value.text)) = .valid texts := by
  have hfrom : ∀ n, itemsFrom text n (texts.map Value.text) = .valid texts := by
    induction texts with
    | nil => exact fun _ ↦ rfl
    | cons s texts ih =>
      intro n
      rw [List.map_cons, itemsFrom, ih (n + 1)]
      rfl
  exact hfrom 0

end Schema

end YulPlus
