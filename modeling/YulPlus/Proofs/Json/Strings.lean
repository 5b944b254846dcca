import YulPlus.Json.Printer
import YulPlus.Json.Token
import YulPlus.Proofs.Text.Digits

/-!
# Strings in JSON

A string is read as it was written, whatever characters a layout writes plainly, as long as the
controls are not among them (`stringFrom_flatMap_encodeChar`). There are four ways to write a
character: its short escape, itself, the escape of its number, and the escapes of a pair of
surrogates, which no character has as its own number. -/

namespace YulPlus

open Text

namespace Json

variable {plain : Char → Bool} {n : Nat} {c : Char} {s rest : Text}

/-- The escape of a code unit is read as its number. -/
theorem exists_unitEscape_eq (h : n < 0x10000) :
    ∃ a b c d, unitEscape n = ['\\', 'u', a, b, c, d] ∧ hexQuad? a b c d = some n := by
  have hlength : (hexPadded 4 n).length = 4 := length_hexPadded (by decide) h
  obtain ⟨a, b, c, d, heq⟩ : ∃ a b c d, hexPadded 4 n = [a, b, c, d] := by
    match hexPadded 4 n, hlength with
    | [a, b, c, d], _ => exact ⟨a, b, c, d, rfl⟩
  refine ⟨a, b, c, d, by rw [unitEscape, heq], ?_⟩
  have hdigit : ∀ x ∈ [a, b, c, d], isHexDigit x = true := fun x hx ↦
    isHexDigit_of_mem_hexPadded (heq ▸ hx)
  have hnumber : hexNumber [a, b, c, d] = n := by rw [← heq, hexNumber_hexPadded]
  simp [hexQuad?, hdigit, hnumber]

/-- No character is half of a surrogate pair. -/
theorem toNat_ne_surrogate (c : Char) :
    isHighSurrogate c.toNat = false ∧ isLowSurrogate c.toNat = false := by
  have hvalid : c.toNat < 0xd800 ∨ 0xdfff < c.toNat ∧ c.toNat < 0x110000 := c.valid
  simp only [isHighSurrogate, isLowSurrogate, Bool.and_eq_false_iff, decide_eq_false_iff_not]
  omega

theorem stringFrom_numberEscape (c : Char) (rest : Text) :
    stringFrom (numberEscape c ++ rest) = pushChar c (stringFrom rest) := by
  by_cases hsmall : c.toNat < 0x10000
  · obtain ⟨d₁, d₂, d₃, d₄, heq, hquad⟩ := exists_unitEscape_eq hsmall
    simp [numberEscape, hsmall, heq, stringFrom, hquad, toNat_ne_surrogate c]
  · have hlarge : c.toNat < 0x110000 := by
      have hvalid : c.toNat < 0xd800 ∨ 0xdfff < c.toNat ∧ c.toNat < 0x110000 := c.valid
      omega
    obtain ⟨d₁, d₂, d₃, d₄, hhigh, hquad⟩ :=
      exists_unitEscape_eq (n := 0xd800 + (c.toNat - 0x10000) / 0x400) (by omega)
    obtain ⟨e₁, e₂, e₃, e₄, hlow, hquad'⟩ :=
      exists_unitEscape_eq (n := 0xdc00 + (c.toNat - 0x10000) % 0x400) (by omega)
    have hjoin : joinSurrogates (0xd800 + (c.toNat - 0x10000) / 0x400)
        (0xdc00 + (c.toNat - 0x10000) % 0x400) = c.toNat := by
      unfold joinSurrogates
      omega
    have hishigh : isHighSurrogate (0xd800 + (c.toNat - 0x10000) / 0x400) = true := by
      simp only [isHighSurrogate, Bool.and_eq_true, decide_eq_true_eq]
      omega
    have hislow : isLowSurrogate (0xdc00 + (c.toNat - 0x10000) % 0x400) = true := by
      simp only [isLowSurrogate, Bool.and_eq_true, decide_eq_true_eq]
      omega
    simp [numberEscape, hsmall, hhigh, hlow, stringFrom, hquad, hquad', hishigh, hislow, hjoin]

/-- A short escape is a backslash and a letter that stands for the character. -/
theorem exists_of_shortEscape {escape : Text} (h : shortEscape? c = some escape) :
    ∃ letter, escape = ['\\', letter] ∧ letter ≠ 'u' ∧ escaped? letter = some c := by
  unfold shortEscape? at h
  split at h <;> cases h <;> exact ⟨_, rfl, by decide, rfl⟩

theorem stringFrom_plain (hescape : shortEscape? c = none) (hcontrol : 0x20 ≤ c.toNat) :
    stringFrom (c :: rest) = pushChar c (stringFrom rest) := by
  have hquote : c ≠ '"' := by
    rintro rfl
    cases hescape
  have hbackslash : c ≠ '\\' := by
    rintro rfl
    cases hescape
  rw [stringFrom]
  · have hkept : (decide (c.toNat < 0x20) || decide (c = '\\')) = false := by
      simpa [hbackslash] using hcontrol
    simp [hkept]
  all_goals simp_all

theorem stringFrom_escaped {letter : Char} (hletter : letter ≠ 'u')
    (hescaped : escaped? letter = some c) :
    stringFrom ('\\' :: letter :: rest) = pushChar c (stringFrom rest) := by
  rw [stringFrom]
  · simp only [hescaped]
  · simp [hletter]

/-- **A character is read as it was written.** -/
theorem stringFrom_encodeChar (hplain : ∀ c, plain c = true → 0x20 ≤ c.toNat) (c : Char)
    (rest : Text) : stringFrom (encodeChar plain c ++ rest) = pushChar c (stringFrom rest) := by
  unfold encodeChar
  cases hescape : shortEscape? c with
  | some escape =>
    obtain ⟨letter, rfl, hletter, hescaped⟩ := exists_of_shortEscape hescape
    exact stringFrom_escaped hletter hescaped
  | none =>
    by_cases hc : plain c = true
    · simpa [hc] using stringFrom_plain hescape (hplain c hc)
    · simpa [hc] using stringFrom_numberEscape c rest

/-- **A string is read as it was written**, up to its closing quote. -/
theorem stringFrom_flatMap_encodeChar (hplain : ∀ c, plain c = true → 0x20 ≤ c.toNat) (s : Text)
    (rest : Text) : stringFrom (s.flatMap (encodeChar plain) ++ '"' :: rest) = some (s, rest) := by
  induction s with
  | nil => exact stringFrom_quote rest
  | cons c s ih =>
    rw [List.flatMap_cons, List.append_assoc, stringFrom_encodeChar hplain, ih]
    rfl

/-! ### Carriage returns -/

/-- A string is written without carriage returns. -/
theorem return_not_mem_encodeString (hplain : ∀ c, plain c = true → 0x20 ≤ c.toNat) (s : Text) :
    '\r' ∉ encodeString plain s := by
  have hunit : ∀ n, '\r' ∉ unitEscape n := by
    intro n h
    have hdigits : '\r' ∈ hexPadded 4 n := by simpa [unitEscape] using h
    exact absurd (isHexDigit_of_mem_hexPadded hdigits) (by decide)
  have hchar : ∀ c, '\r' ∉ encodeChar plain c := by
    intro c h
    unfold encodeChar at h
    split at h
    · next escape hescape =>
      obtain ⟨letter, rfl, -, hletter⟩ := exists_of_shortEscape hescape
      obtain rfl : '\r' = letter := by simpa using h
      cases hletter
    · split at h
      · next hc =>
        obtain rfl := List.mem_singleton.mp h
        exact absurd (hplain _ hc) (by decide)
      · unfold numberEscape at h
        dsimp only at h
        split at h
        · exact hunit _ h
        · exact (List.mem_append.mp h).elim (hunit _) (hunit _)
  simpa [encodeString] using fun c _ ↦ hchar c

end Json

end YulPlus
