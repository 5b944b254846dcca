import Mathlib.Data.List.Forall2

/-!
# Steps that succeed

A reader is a chain of steps of which each may fail. It succeeds exactly when every step does, and a
list of things is read exactly when each of them is: what is read is related to what it is read from
member by member (`mapM_eq_ok_iff`). -/

namespace YulPlus

/-! ### Lists that are related member by member -/

section

variable {α β : Type} {R : α → β → Prop} {as : List α} {bs : List β} {a : α} {b : β}

theorem exists_mem_of_mem_left (h : List.Forall₂ R as bs) (ha : a ∈ as) : ∃ b ∈ bs, R a b := by
  induction h with
  | nil => cases ha
  | cons hab _ ih =>
    rcases List.mem_cons.1 ha with rfl | ha
    · exact ⟨_, by simp, hab⟩
    · obtain ⟨b, hb, hR⟩ := ih ha
      exact ⟨b, by simp [hb], hR⟩

theorem exists_mem_of_mem_right (h : List.Forall₂ R as bs) (hb : b ∈ bs) : ∃ a ∈ as, R a b :=
  exists_mem_of_mem_left h.flip hb

theorem exists_forall₂ (h : ∀ a ∈ as, ∃ b, R a b) : ∃ bs, List.Forall₂ R as bs := by
  induction as with
  | nil => exact ⟨[], .nil⟩
  | cons a as ih =>
    obtain ⟨b, hb⟩ := h a (by simp)
    obtain ⟨bs, hbs⟩ := ih fun a' ha' ↦ h a' (by simp [ha'])
    exact ⟨b :: bs, .cons hb hbs⟩

end

/-! ### Chains of steps -/

section

variable {α β ε ε' : Type} {as : List α} {bs : List β} {x : Except ε α} {b : β}

theorem bind_eq_ok_iff {f : α → Except ε β} :
    x >>= f = .ok b ↔ ∃ a, x = .ok a ∧ f a = .ok b := by
  cases x <;> simp [bind, Except.bind]

theorem bind_eq_error_iff {f : α → Except ε β} {e : ε} :
    x >>= f = .error e ↔ x = .error e ∨ ∃ a, x = .ok a ∧ f a = .error e := by
  cases x <;> simp [bind, Except.bind]

theorem mapError_eq_ok_iff {f : ε → ε'} {a : α} : x.mapError f = .ok a ↔ x = .ok a := by
  cases x with
  | error e => exact ⟨nofun, nofun⟩
  | ok b => exact ⟨fun h ↦ congrArg _ (Except.ok.inj h), fun h ↦ congrArg _ (Except.ok.inj h)⟩

theorem exists_of_mapError_eq_error {f : ε → ε'} {e' : ε'} (h : x.mapError f = .error e') :
    ∃ e, x = .error e ∧ f e = e' := by
  cases x with
  | error e => exact ⟨e, rfl, Except.error.inj h⟩
  | ok a => cases h

theorem exists_of_isOk {x : Except ε α} (h : x.isOk) : ∃ a, x = .ok a := by
  cases x with
  | error e => cases h
  | ok a => exact ⟨a, rfl⟩

theorem exists_of_map_eq_ok {f : α → β} (h : x.map f = .ok b) : ∃ a, x = .ok a ∧ f a = b := by
  cases x with
  | error e => cases h
  | ok a => exact ⟨a, rfl, Except.ok.inj h⟩

theorem map_eq_error_iff {f : α → β} {e : ε} : x.map f = .error e ↔ x = .error e := by
  cases x with
  | error e' =>
    exact ⟨fun h ↦ congrArg _ (Except.error.inj h), fun h ↦ congrArg _ (Except.error.inj h)⟩
  | ok a => exact ⟨nofun, nofun⟩

/-- **A list is read exactly when each of its things is.** -/
theorem mapM_eq_ok_iff {f : α → Except ε β} :
    as.mapM f = .ok bs ↔ List.Forall₂ (fun a b ↦ f a = .ok b) as bs := by
  induction as generalizing bs with
  | nil => cases bs <;> simp [pure, Except.pure]
  | cons a as ih =>
    rw [List.mapM_cons]
    constructor
    · intro h
      obtain ⟨b, hb, h⟩ := bind_eq_ok_iff.1 h
      obtain ⟨rest, hrest, h⟩ := bind_eq_ok_iff.1 h
      cases h
      exact .cons hb (ih.1 hrest)
    · intro h
      cases h with
      | cons hb hrest => exact bind_eq_ok_iff.2 ⟨_, hb, bind_eq_ok_iff.2 ⟨_, ih.2 hrest, rfl⟩⟩

theorem mapM_map_snd {f : β → Except ε α} {pairs : List (α × β)}
    (h : ∀ p ∈ pairs, f p.2 = .ok p.1) :
    (pairs.map Prod.snd).mapM f = .ok (pairs.map Prod.fst) := by
  rw [mapM_eq_ok_iff, List.forall₂_map_left_iff, List.forall₂_map_right_iff]
  exact List.forall₂_same.2 h

/-- Each part of what was read was read from something. -/
theorem exists_mem_of_mapM {f : α → Except ε β} (h : as.mapM f = .ok bs) (hb : b ∈ bs) :
    ∃ a ∈ as, f a = .ok b := by
  obtain ⟨a, ha, hread⟩ := exists_mem_of_mem_right (mapM_eq_ok_iff.1 h) hb
  exact ⟨a, ha, hread⟩

/-- A list is not read because of one of its things. -/
theorem exists_mem_of_mapM_eq_error {f : α → Except ε β} {e : ε} (h : as.mapM f = .error e) :
    ∃ a ∈ as, f a = .error e := by
  induction as with
  | nil => cases h
  | cons a as ih =>
    rw [List.mapM_cons] at h
    rcases bind_eq_error_iff.1 h with h | ⟨b, -, h⟩
    · exact ⟨a, by simp, h⟩
    · rcases bind_eq_error_iff.1 h with h | ⟨rest, -, h⟩
      · obtain ⟨c, hc, heq⟩ := ih h
        exact ⟨c, by simp [hc], heq⟩
      · cases h

/-- A list is not gone through because of one of its things. -/
theorem exists_mem_of_forM_eq_error {f : α → Except ε Unit} {e : ε} (h : as.forM f = .error e) :
    ∃ a ∈ as, f a = .error e := by
  induction as with
  | nil => cases h
  | cons a as ih =>
    rcases bind_eq_error_iff.1 h with h | ⟨-, -, h⟩
    · exact ⟨a, by simp, h⟩
    · obtain ⟨b, hb, heq⟩ := ih h
      exact ⟨b, by simp [hb], heq⟩

/-- A list is read only if each of its things is. -/
theorem exists_eq_ok_of_mapM {f : α → Except ε β} {a : α} (h : as.mapM f = .ok bs) (ha : a ∈ as) :
    ∃ b, f a = .ok b := by
  obtain ⟨b, -, hb⟩ := exists_mem_of_mem_left (mapM_eq_ok_iff.1 h) ha
  exact ⟨b, hb⟩

end

end YulPlus
