import YulPlus.Proofs.Signature.Declared
import YulPlus.Signature.Parser

/-!
# Refused signatures

A declaration that is no tuple is read from its first word. A text without a word would be refused
with a fault that shows this text, and no signature comes to that (`Signature.parse_outcome`).

Declarations are cut from lists by `parameterParts` only, at every depth and behind `returns` as
well, and no part of a list is blank. What is done to a part before its first word is taken leaves
the words as they are (`exists_or_words_bareParameter`). So a fault about a declaration shows one
that has words (`words_ne_nil_of_readParameter`). -/

namespace YulPlus

open Text

/-- The fault of a text whose first word is asked for and that has no word. -/
def SignatureFault.IsWordless : SignatureFault → Prop
  | invalidParameter parameter => words parameter = []
  | _ => False

section

variable {s p list part : Text} {parts qualifiers : List Text} {fault : SignatureFault}

theorem SignatureFault.IsWordless.exists_eq (h : fault.IsWordless) :
    ∃ p, fault = .invalidParameter p ∧ words p = [] := by
  cases fault with
  | invalidParameter p => exact ⟨p, rfl, h⟩
  | _ => cases h

/-! ### Plain declarations -/

theorem eq_of_checkQualifiers (h : checkQualifiers s qualifiers = .error fault) :
    fault = .invalidParameter s := by
  unfold checkQualifiers at h
  dsimp only at h
  split_ifs at h
  exact (Except.error.inj h).symm

/-- A fault about a declaration shows the declaration. -/
theorem eq_of_readElementary (h : readElementary s = .error (.invalidParameter p)) : p = s := by
  unfold readElementary at h
  split at h
  · exact (SignatureFault.invalidParameter.inj (Except.error.inj h)).symm
  · split at h
    · cases h
    · split at h
      · rcases bind_eq_error_iff.1 h with h | ⟨-, -, h⟩
        · exact SignatureFault.invalidParameter.inj (eq_of_checkQualifiers h)
        · cases h
      · cases h

/-- **A text without a word** is refused for that, and no other text is. -/
theorem words_eq_nil_iff_readElementary :
    words s = [] ↔ ∃ fault, readElementary s = .error fault ∧ fault.IsWordless := by
  constructor
  · intro h
    exact ⟨.invalidParameter s, by rw [readElementary, h], h⟩
  · rintro ⟨fault, h, hwordless⟩
    obtain ⟨p, rfl, hp⟩ := hwordless.exists_eq
    exact eq_of_readElementary h ▸ hp

/-! ### Parts of a list -/

/-- Without its blanks and the word `tuple` a declaration is a tuple, or it has the words it had. -/
theorem exists_or_words_bareParameter (s : Text) :
    (∃ tail, bareParameter s = '(' :: tail) ∨ words (bareParameter s) = words s := by
  unfold bareParameter
  dsimp only
  split
  · rename_i hbegins
    obtain ⟨rest, hrest⟩ := List.isPrefixOf_iff_prefix.1 hbegins
    exact .inl ⟨rest, by rw [← hrest]; rfl⟩
  · exact .inr (words_strip s)

/-- No part of a list is blank. -/
theorem not_allBlank_of_mem_parameterParts (h : parameterParts list = .ok parts) :
    ∀ part ∈ parts, ¬ AllBlank part := by
  rcases parameterParts_eq_ok_iff.1 h with ⟨-, rfl⟩ | ⟨-, -, hparts⟩
  · exact fun part hpart ↦ by cases hpart
  · exact hparts

/-- **A fault about a declaration** that is not blank shows one with words: the declaration itself,
or one that stands in it. -/
theorem words_ne_nil_of_readParameter (hs : ¬ AllBlank s)
    (h : readParameter s = .error (.invalidParameter p)) : words p ≠ [] := by
  induction hn : s.length using Nat.strong_induction_on generalizing s with
  | _ n ih =>
    subst hn
    rw [readParameter] at h
    split at h
    · rename_i tail hbare
      split at h
      · cases h
      · rename_i inner after hclose
        split at h
        · rename_i hparts
          cases h
          cases (parameterParts_eq_error_iff.1 hparts).2.1
        · rename_i parts hparts
          rcases bind_eq_error_iff.1 h with h | ⟨components, -, h⟩
          · obtain ⟨⟨part, hpart⟩, -, hread⟩ := exists_mem_of_mapM_eq_error h
            have hblank := not_allBlank_of_mem_parameterParts hparts part hpart
            exact ih _ (length_lt_of_component hbare hclose hparts hpart) hblank hread rfl
          · rcases bind_eq_error_iff.1 h with h | ⟨-, -, h⟩
            · obtain rfl := SignatureFault.invalidParameter.inj (eq_of_checkQualifiers h)
              exact mt words_eq_nil_iff.1 fun hblank ↦
                absurd (hblank '(' List.mem_cons_self) (by decide)
            · cases h
    · rename_i hplain
      rw [eq_of_readElementary h]
      rcases exists_or_words_bareParameter s with ⟨tail, hbare⟩ | hwords
      · exact absurd hbare (hplain tail)
      · rw [hwords]
        exact mt words_eq_nil_iff.1 hs

/-- **A declaration is refused for the lack of a word** exactly if it is blank, so never for one of
its components. -/
theorem allBlank_iff_readParameter :
    AllBlank s ↔ ∃ fault, readParameter s = .error fault ∧ fault.IsWordless := by
  constructor
  · intro hs
    have hstrip : strip s = [] := strip_append_right hs []
    have hbare : bareParameter s = [] := by
      unfold bareParameter
      rw [hstrip]
      rfl
    have hread : readParameter s = readElementary [] := by
      rw [readParameter]
      split
      · rename_i tail hp
        rw [hbare] at hp
        cases hp
      · rw [hbare]
    rw [hread]
    exact words_eq_nil_iff_readElementary.1 rfl
  · rintro ⟨fault, h, hwordless⟩
    obtain ⟨p, rfl, hp⟩ := hwordless.exists_eq
    by_contra hs
    exact words_ne_nil_of_readParameter hs h hp

theorem words_ne_nil_of_mem_parameterParts (hparts : parameterParts list = .ok parts)
    (hpart : part ∈ parts) (h : readParameter part = .error (.invalidParameter p)) :
    words p ≠ [] :=
  words_ne_nil_of_readParameter (not_allBlank_of_mem_parameterParts hparts part hpart) h

end

namespace Signature

variable {kind text trailer tail p : Text}

/-! ### Whole signatures -/

theorem words_ne_nil_of_checkReturns
    (h : checkReturns trailer tail = .error (.invalidParameter p)) : words p ≠ [] := by
  unfold checkReturns at h
  split at h
  · split at h
    · cases h
    · rcases bind_eq_error_iff.1 h with h | ⟨parts, hparts, h⟩
      · cases (parameterParts_eq_error_iff.1 h).2.1
      · obtain ⟨part, hpart, h⟩ := exists_mem_of_forM_eq_error h
        rcases bind_eq_error_iff.1 h with h | ⟨type, -, h⟩
        · exact words_ne_nil_of_mem_parameterParts hparts hpart h
        · cases h
    · cases h
  · cases h

theorem words_ne_nil_of_checkTrailer
    (h : checkTrailer kind trailer = .error (.invalidParameter p)) : words p ≠ [] := by
  unfold checkTrailer at h
  split at h
  · cases h
  · split at h
    · split at h
      · cases h
      · cases h
    · split at h
      split at h
      · cases h
      · split at h
        · exact words_ne_nil_of_checkReturns h
        · cases h

/-- A fault about a declaration of a signature shows one with words. -/
theorem words_ne_nil_of_parse (h : parse kind text = .error (.invalidParameter p)) :
    words p ≠ [] := by
  unfold parse at h
  dsimp only at h
  split at h
  · cases h
  · split at h
    · split at h
      · split at h
        · cases h
        · -- what stands behind the parameters is checked first
          rcases bind_eq_error_iff.1 h with h | ⟨-, -, h⟩
          · exact words_ne_nil_of_checkTrailer h
          rcases bind_eq_error_iff.1 h with h | ⟨parts, hparts, h⟩
          · cases (parameterParts_eq_error_iff.1 h).2.1
          rcases bind_eq_error_iff.1 h with h | ⟨types, -, h⟩
          · obtain ⟨part, hpart, h⟩ := exists_mem_of_mapM_eq_error h
            exact words_ne_nil_of_mem_parameterParts hparts hpart h
          · cases h
      · cases h
    · cases h

/-- **Parsing returns a signature or refuses the text**, and it asks for no word that is not there.
A text without a word is refused with a fault that says so. Reading a declaration ends with such a
fault exactly if the declaration is blank, whatever stands in its parentheses; but no part of a list
is blank, so it is a tuple or has a first word when it is asked for. No signature is refused with
such a fault, be it for its parameters, for the components of a tuple or for what a function
returns. -/
theorem parse_outcome (kind text : Text) :
    ((∃ s, parse kind text = .ok s) ∨
      ∃ fault, parse kind text = .error fault ∧ ¬ fault.IsWordless) ∧
    (∀ s, words s = [] ↔ ∃ fault, readElementary s = .error fault ∧ fault.IsWordless) ∧
    (∀ s, AllBlank s ↔ ∃ fault, readParameter s = .error fault ∧ fault.IsWordless) ∧
    ∀ list parts, parameterParts list = .ok parts → ∀ part ∈ parts,
      (∃ tail, bareParameter part = '(' :: tail) ∨ words (bareParameter part) ≠ [] := by
  refine ⟨?_, fun s ↦ words_eq_nil_iff_readElementary, fun s ↦ allBlank_iff_readParameter,
    fun list parts hparts part hpart ↦ ?_⟩
  · cases h : parse kind text with
    | ok s => exact .inl ⟨s, rfl⟩
    | error fault =>
      refine .inr ⟨fault, rfl, fun hwordless ↦ ?_⟩
      obtain ⟨p, rfl, hp⟩ := hwordless.exists_eq
      exact words_ne_nil_of_parse h hp
  · refine (exists_or_words_bareParameter part).imp id fun hwords ↦ ?_
    rw [hwords]
    exact mt words_eq_nil_iff.1 (not_allBlank_of_mem_parameterParts hparts part hpart)

/-- A tab between two commas is no parameter. It is refused with its list, and never read. -/
theorem parse_outcome_tab :
    parse functionKind "f(uint,\t,(byte))".toList =
        .error (.emptyParameter "uint,\t,(byte)".toList) ∧
      (∃ fault, readElementary "\t".toList = .error fault ∧ fault.IsWordless) ∧
      (¬ ∃ fault, readParameter "(\t,int)".toList = .error fault ∧ fault.IsWordless) ∧
      words (bareParameter "\tbyte b".toList) ≠ [] := by
  have hcut : parameterParts "(int),\tbyte b".toList = .ok ["(int)".toList, "\tbyte b".toList] := by
    decide
  obtain ⟨-, hwords, hblank, hparts⟩ := parse_outcome functionKind "f(uint,\t,(byte))".toList
  refine ⟨rfl, (hwords _).1 (by decide), mt (hblank _).2 (by decide),
    (hparts _ _ hcut _ (by simp)).resolve_left ?_⟩
  rintro ⟨tail, hbare⟩
  have hhead : (bareParameter "\tbyte b".toList).head? = some 'b' := by decide
  rw [hbare] at hhead
  cases hhead

end Signature

end YulPlus
