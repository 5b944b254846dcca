import Mathlib.Data.List.Forall2
import YulPlus.Schema.Checked

/-!
# What a check passes over

An object is read by its declared fields, so entries under other keys have no influence. Nested
objects are read in the same way, and so are the items of lists and the values of open maps. Here a
change to a value is a relation: `ExtendsObject` adds undeclared entries to an object and changes
what stands in its fields, `ExtendsMap` and `ExtendsItems` change the values of a map and the items
of a list and leave the keys and the number of items. A check that no part of a change has an
influence on gives the same outcome, with all its faults, for the whole (`ExtendsObject.record_eq`,
`ExtendsMap.mapOf_eq`, `ExtendsItems.list_eq`). -/

namespace YulPlus

namespace Schema

/-- The key is one of the spellings of the field. -/
def FieldName.IsSpelling (f : FieldName) (key : Scalar) : Prop :=
  key = .text f.wire ∨ key = .text f.plain

/-- Entries become others: ones that no field declares are added anywhere, and the value of a field
becomes one that the relation of the field allows. What stands under any other key is free. -/
inductive ExtendsEntries (fields : List (FieldName × (Value → Value → Prop))) :
    List (Scalar × Value) → List (Scalar × Value) → Prop
  | nil : ExtendsEntries fields [] []
  | added {key : Scalar} {v : Value} {entries entries' : List (Scalar × Value)}
      (hkey : ∀ field ∈ fields, ¬ field.1.IsSpelling key)
      (h : ExtendsEntries fields entries entries') :
      ExtendsEntries fields entries ((key, v) :: entries')
  | kept {key : Scalar} {v v' : Value} {entries entries' : List (Scalar × Value)}
      (hvalue : ∀ field ∈ fields, field.1.IsSpelling key → field.2 v v')
      (h : ExtendsEntries fields entries entries') :
      ExtendsEntries fields ((key, v) :: entries) ((key, v') :: entries')

/-- An object becomes another one entry by entry; any value may stay as it is. -/
inductive ExtendsObject (fields : List (FieldName × (Value → Value → Prop))) :
    Value → Value → Prop
  | same (v : Value) : ExtendsObject fields v v
  | entries {entries entries' : List (Scalar × Value)}
      (h : ExtendsEntries fields entries entries') :
      ExtendsObject fields (.map entries) (.map entries')

/-- The values of an open map become others under the same keys; any value may stay as it is. -/
inductive ExtendsMap (related : Value → Value → Prop) : Value → Value → Prop
  | same (v : Value) : ExtendsMap related v v
  | entries {entries entries' : List (Scalar × Value)}
      (h : List.Forall₂ (fun e e' ↦ e'.1 = e.1 ∧ related e.2 e'.2) entries entries') :
      ExtendsMap related (.map entries) (.map entries')

/-- The items of a list become others in their places; any value may stay as it is. -/
inductive ExtendsItems (related : Value → Value → Prop) : Value → Value → Prop
  | same (v : Value) : ExtendsItems related v v
  | items {items items' : List Value} (h : List.Forall₂ related items items') :
      ExtendsItems related (.list items) (.list items')

section

variable {α : Type} {fields : List (FieldName × (Value → Value → Prop))}
  {related : Value → Value → Prop} {f : FieldName} {check : Value → Checked α} {default : α}
  {entries entries' : List (Scalar × Value)} {v v' : Value}

/-! ### Fields -/

/-- Under a spelling of a field stand values that the relation of the field relates. -/
theorem ExtendsEntries.find?_rel (h : ExtendsEntries fields entries entries')
    (hfield : (f, related) ∈ fields) {name : Text} (hname : f.IsSpelling (.text name)) :
    Option.Rel related (Value.find? name entries) (Value.find? name entries') := by
  induction h with
  | nil => exact .none
  | @added key v entries entries' hkey h ih =>
    -- An added key spells no field, so the search goes past it.
    have hne : key ≠ .text name := by
      rintro rfl
      exact hkey _ hfield hname
    simpa [Value.find?, hne] using ih
  | @kept key v v' entries entries' hvalue h ih =>
    by_cases heq : key = .text name
    · subst heq
      simpa [Value.find?] using Option.Rel.some (hvalue _ hfield hname)
    · simpa [Value.find?, heq] using ih

/-- A field occurs under the same spelling, or it does not occur. -/
theorem ExtendsEntries.field_rel (h : ExtendsEntries fields entries entries')
    (hfield : (f, related) ∈ fields) :
    Option.Rel (fun e e' ↦ e'.1 = e.1 ∧ related e.2 e'.2) (f.find? entries)
      (f.find? entries') := by
  have hwire := h.find?_rel hfield (.inl rfl)
  have hplain := h.find?_rel hfield (.inr rfl)
  unfold FieldName.find?
  generalize Value.find? f.wire entries = wire, Value.find? f.wire entries' = wire' at hwire ⊢
  cases hwire with
  | some hvalue => exact .some ⟨rfl, hvalue⟩
  | none =>
    generalize Value.find? f.plain entries = plain, Value.find? f.plain entries' = plain'
      at hplain ⊢
    cases hplain with
    | some hvalue => exact .some ⟨rfl, hvalue⟩
    | none => exact .none

theorem ExtendsEntries.field_eq (h : ExtendsEntries fields entries entries')
    (hfield : (f, related) ∈ fields) (hcheck : ∀ v v', related v v' → check v' = check v) :
    field f default check entries' = field f default check entries := by
  have hfound := h.field_rel hfield
  unfold field
  generalize f.find? entries = found, f.find? entries' = found' at hfound ⊢
  cases hfound with
  | none => rfl
  | some hentry =>
    obtain ⟨hname, hvalue⟩ := hentry
    simp only [hname, hcheck _ _ hvalue]

theorem ExtendsEntries.required_eq (h : ExtendsEntries fields entries entries')
    (hfield : (f, related) ∈ fields) (hcheck : ∀ v v', related v v' → check v' = check v) :
    required f check entries' = required f check entries := by
  have hfound := h.field_rel hfield
  unfold required
  generalize f.find? entries = found, f.find? entries' = found' at hfound ⊢
  cases hfound with
  | none => rfl
  | some hentry =>
    obtain ⟨hname, hvalue⟩ := hentry
    simp only [hname, hcheck _ _ hvalue]

/-! ### Whole values -/

theorem ExtendsObject.record_eq {check : List (Scalar × Value) → Checked α}
    (h : ExtendsObject fields v v')
    (hcheck : ∀ entries entries', ExtendsEntries fields entries entries' →
      check entries' = check entries) : record check v' = record check v := by
  cases h with
  | same => rfl
  | entries h => exact hcheck _ _ h

/-- An object stays an object, so it is null only if it was. -/
theorem ExtendsObject.optional_eq (h : ExtendsObject fields v v') (hcheck : check v' = check v) :
    optional check v' = optional check v := by
  cases h with
  | same => rfl
  | entries h => exact congrArg (some <$> ·) hcheck

theorem ExtendsMap.mapOf_eq (h : ExtendsMap related v v')
    (hcheck : ∀ v v', related v v' → check v' = check v) :
    mapOf check v' = mapOf check v := by
  cases h with
  | same => rfl
  | entries h =>
    simp only [mapOf]
    induction h with
    | nil => rfl
    | @cons e e' entries entries' hentry hrest ih =>
      obtain ⟨hkey, hvalue⟩ := hentry
      simp only [Checked.all, ih, hkey, hcheck _ _ hvalue]

theorem ExtendsItems.list_eq (h : ExtendsItems related v v')
    (hcheck : ∀ v v', related v v' → check v' = check v) :
    list check v' = list check v := by
  cases h with
  | same => rfl
  | @items items items' h =>
    have hfrom : ∀ n, itemsFrom check n items' = itemsFrom check n items := by
      induction h with
      | nil => exact fun _ ↦ rfl
      | @cons v v' items items' hitem hrest ih =>
        intro n
        rw [itemsFrom, itemsFrom, ih, hcheck _ _ hitem]
    exact hfrom 0

end

end Schema

end YulPlus
