import Mathlib.Data.List.Forall2
import YulPlus.Schema.Checked

/-!
# What passes a check

A check collects the faults of all its parts, so it gives a value exactly when every part does, and
the value is put together from what the parts give: one equivalence for each way to build a check.
Open maps and lists are checked entry by entry, and nothing is lost or put in another place. -/

namespace YulPlus

namespace Schema

/-- What stands in a field of an object. -/
def FieldName.Holds (f : FieldName) (v w : Value) : Prop :=
  ∃ entries name, v = .map entries ∧ f.find? entries = some (name, w)

variable {α β : Type}

namespace Checked

theorem map_eq_valid_iff {f : α → β} {x : Checked α} {b : β} :
    f <$> x = .valid b ↔ ∃ a, x = .valid a ∧ f a = b := by
  cases x with
  | valid a => exact ⟨fun h ↦ ⟨a, rfl, Checked.valid.inj h⟩, fun ⟨_, rfl, h⟩ ↦ congrArg _ h⟩
  | invalid faults => exact ⟨nofun, nofun⟩

theorem seq_eq_valid_iff {f : Checked (α → β)} {x : Checked α} {b : β} :
    f <*> x = .valid b ↔ ∃ g a, f = .valid g ∧ x = .valid a ∧ g a = b := by
  cases f with
  | valid g =>
    cases x with
    | valid a =>
      exact ⟨fun h ↦ ⟨g, a, rfl, rfl, Checked.valid.inj h⟩, fun ⟨_, _, rfl, rfl, h⟩ ↦ congrArg _ h⟩
    | invalid faults => exact ⟨nofun, nofun⟩
  | invalid faults => cases x <;> exact ⟨nofun, nofun⟩

theorem under_eq_valid_iff {step : Step} {x : Checked α} {a : α} :
    x.under step = .valid a ↔ x = .valid a := by
  cases x with
  | valid b => exact Iff.rfl
  | invalid faults => exact ⟨nofun, nofun⟩

theorem all_eq_valid_iff {check : α → Checked β} {as : List α} {bs : List β} :
    all check as = .valid bs ↔ List.Forall₂ (fun a b ↦ check a = .valid b) as bs := by
  induction as generalizing bs with
  | nil => exact ⟨fun h ↦ Checked.valid.inj h ▸ .nil, fun h ↦ by cases h; rfl⟩
  | cons a as ih =>
    rw [all, seq_eq_valid_iff]
    constructor
    · rintro ⟨_, rest, hhead, hrest, rfl⟩
      obtain ⟨b, hb, rfl⟩ := map_eq_valid_iff.mp hhead
      exact .cons hb (ih.mp hrest)
    · intro h
      cases h with
      | cons hb hrest => exact ⟨_, _, map_eq_valid_iff.mpr ⟨_, hb, rfl⟩, ih.mpr hrest, rfl⟩

end Checked

section

variable {check : Value → Checked α} {f : FieldName} {v : Value} {entries : List (Scalar × Value)}
  {default a : α}

theorem record_eq_valid_iff {fields : List (Scalar × Value) → Checked α} :
    record fields v = .valid a ↔ ∃ entries, v = .map entries ∧ fields entries = .valid a := by
  cases v with
  | map entries =>
    refine ⟨fun h ↦ ⟨entries, rfl, h⟩, fun ⟨_, heq, h⟩ ↦ ?_⟩
    cases heq
    exact h
  | scalar s => exact ⟨nofun, nofun⟩
  | list items => exact ⟨nofun, nofun⟩

theorem field_eq_valid_iff : field f default check entries = .valid a ↔
    (∃ name v, f.find? entries = some (name, v) ∧ check v = .valid a) ∨
      f.find? entries = none ∧ default = a := by
  unfold field
  rcases f.find? entries with - | ⟨name, v⟩
  · simp
  · simp [Checked.under_eq_valid_iff]

/-- What stands in a field has passed the check of the field. -/
theorem check_eq_valid_of_field {w : Value} (hfield : field f default check entries = .valid a)
    (h : f.Holds (.map entries) w) : check w = .valid a := by
  obtain ⟨_, name, heq, hfind⟩ := h
  cases heq
  rcases field_eq_valid_iff.mp hfield with ⟨_, _, hfind', hcheck⟩ | ⟨hnone, -⟩
  · cases hfind.symm.trans hfind'
    exact hcheck
  · cases hfind.symm.trans hnone

/-- What is not null passes the check that is not optional. -/
theorem exists_of_optional {o : Option α} (h : optional check v = .valid o) (hnull : v ≠ .null) :
    ∃ a, o = some a ∧ check v = .valid a := by
  unfold optional at h
  split at h
  · exact absurd rfl hnull
  · obtain ⟨a, ha, rfl⟩ := Checked.map_eq_valid_iff.mp h
    exact ⟨a, rfl, ha⟩

theorem textKey_eq_valid_iff {key : Scalar} {s : Text} :
    textKey key = .valid s ↔ key = .text s := by
  cases key <;> simp [textKey, Checked.under, Checked.fail]

/-- An open map keeps every key, and under each key what its value is checked to. -/
theorem mapOf_eq_valid_iff {pairs : List (Text × α)} : mapOf check v = .valid pairs ↔
    ∃ entries, v = .map entries ∧
      List.Forall₂ (fun e p ↦ e.1 = .text p.1 ∧ check e.2 = .valid p.2) entries pairs := by
  have hentry : ∀ (e : Scalar × Value) (p : Text × α),
      (Prod.mk <$> textKey e.1 <*> check e.2).under (keyStep e.1) = .valid p ↔
        e.1 = .text p.1 ∧ check e.2 = .valid p.2 := by
    rintro ⟨key, w⟩ ⟨s, b⟩
    simp only [Checked.under_eq_valid_iff, Checked.seq_eq_valid_iff, Checked.map_eq_valid_iff,
      textKey_eq_valid_iff]
    constructor
    · rintro ⟨_, _, ⟨_, hkey, rfl⟩, hcheck, heq⟩
      cases heq
      exact ⟨hkey, hcheck⟩
    · rintro ⟨hkey, hcheck⟩
      exact ⟨_, _, ⟨_, hkey, rfl⟩, hcheck, rfl⟩
  cases v with
  | map entries =>
    rw [mapOf, Checked.all_eq_valid_iff]
    simp only [hentry, Value.map.injEq, exists_eq_left']
  | scalar s => exact ⟨nofun, nofun⟩
  | list items => exact ⟨nofun, nofun⟩

/-- An open map of anything is kept as it is. -/
theorem eq_record_of_mapOf_anything {pairs : List (Text × Value)}
    (h : mapOf anything v = .valid pairs) : v = .record pairs := by
  obtain ⟨entries, rfl, hentries⟩ := mapOf_eq_valid_iff.mp h
  have hmap : entries = pairs.map fun p ↦ (.text p.1, p.2) := by
    clear h
    induction hentries with
    | nil => rfl
    | @cons e p entries pairs hentry _ ih =>
      obtain ⟨hkey, hvalue⟩ := hentry
      rw [List.map_cons, ← hkey, ← Checked.valid.inj hvalue, ih]
  rw [Value.record, hmap]

end

end Schema

end YulPlus
