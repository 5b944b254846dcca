import YulPlus.Project.Config
import YulPlus.Proofs.Outcome
import YulPlus.Proofs.Schema.Checks
import YulPlus.Proofs.Text.Digits

/-!
# Where the version of a configuration comes from

The version of a configuration is the text of its entry, or the display of a number or a truth value
there. No display has a quote in it, so a version with a quote is the text of its entry
(`ProjectConfig.exists_of_parse`). -/

namespace YulPlus

open Text Schema

namespace ProjectConfig

variable {label v text : Text} {config : ProjectConfig} {value : Value}
  {entries shown : List (Scalar × Value)}

/-! ### Displays -/

theorem quote_not_mem_positional (d : Decimal.Digits) : '"' ∉ Notation.positional d := by
  have hdigits : '"' ∉ d.text := not_mem_toDigits rfl _
  have hzeros : ∀ n, '"' ∉ List.replicate n '0' := by simp [List.mem_replicate]
  have htake : ∀ n, '"' ∉ d.text.take n := fun n h ↦ hdigits (List.mem_of_mem_take h)
  have hdrop : ∀ n, '"' ∉ d.text.drop n := fun n h ↦ hdigits (List.mem_of_mem_drop h)
  unfold Notation.positional
  dsimp only
  split
  · simp [hdigits]
  · split
    · simp [hdigits]
    · simp [htake, hdrop]

theorem quote_not_mem_scientific (width : Nat) (d : Decimal.Digits) :
    '"' ∉ Notation.scientific width d := by
  have hdigits : '"' ∉ d.text := not_mem_toDigits rfl _
  have hexponent : '"' ∉ decimal d.leadingExponent.natAbs := not_mem_toDigits rfl _
  unfold Notation.scientific
  dsimp only
  split <;> split <;> simp_all

theorem quote_not_mem_render (x : Binary64) : '"' ∉ plainNotation.render x := by
  have hbody : ∀ d : Decimal.Digits, '"' ∉ (if plainNotation.least ≤ d.leadingExponent &&
      d.leadingExponent ≤ plainNotation.greatest then Notation.positional d
      else Notation.scientific plainNotation.exponentWidth d) := by
    intro d
    split
    · exact quote_not_mem_positional d
    · exact quote_not_mem_scientific _ d
  unfold Notation.render
  split
  · decide
  · split <;> decide
  · split <;> decide
  · dsimp only
    split
    · exact List.not_mem_cons_of_ne_of_not_mem (by decide) (hbody _)
    · exact hbody _

/-- A version with a quote is no number and no truth value. -/
theorem eq_of_displayVersion (h : displayVersion value = .ok (.text v)) (hquote : '"' ∈ v) :
    value = .text v := by
  unfold displayVersion at h
  split at h
  · next b =>
    obtain ⟨⟩ := Except.ok.inj h
    cases b <;> exact absurd hquote (by decide)
  · next n =>
    obtain ⟨s, hs, heq⟩ := exists_of_map_eq_ok h
    obtain ⟨⟩ := heq
    unfold Decimal.showInteger at hs
    split at hs
    · cases hs
    · obtain rfl := Except.ok.inj hs
      exact absurd hquote (not_mem_toString rfl (by decide) n)
  · next x =>
    obtain ⟨⟩ := Except.ok.inj h
    exact absurd hquote (quote_not_mem_render x)
  · exact Except.ok.inj h

theorem mem_of_withDisplayedVersion (h : withDisplayedVersion entries = .ok shown)
    (hmem : (.text versionField.wire, .text v) ∈ shown) (hquote : '"' ∈ v) :
    (.text versionField.wire, .text v) ∈ entries := by
  obtain ⟨⟨key, value⟩, hentry, hshown⟩ := exists_mem_of_mapM h hmem
  dsimp only at hshown
  split at hshown
  · next hkey =>
    obtain ⟨value', hvalue', heq⟩ := exists_of_map_eq_ok hshown
    obtain ⟨-, rfl⟩ := Prod.mk.inj heq
    rw [← eq_of_displayVersion hvalue' hquote, ← hkey]
    exact hentry
  · obtain ⟨rfl, rfl⟩ := Prod.mk.inj (Except.ok.inj hshown)
    exact hentry

theorem mem_of_find {key : Text} (h : Value.find? key entries = some value) :
    (.text key, value) ∈ entries := by
  obtain ⟨⟨key', value'⟩, hfind, rfl⟩ := Option.map_eq_some_iff.1 h
  have hkey : key' = .text key := by simpa using List.find?_some hfind
  exact hkey ▸ List.mem_of_find?_eq_some hfind

/-- The version is the text of its entry. -/
theorem mem_of_ofEntries (h : ofEntries entries = .valid config) :
    (.text versionField.wire, .text config.version) ∈ entries := by
  obtain ⟨_, _, hread, -, rfl⟩ := Checked.seq_eq_valid_iff.1 h
  obtain ⟨_, hfields, rfl⟩ := Checked.map_eq_valid_iff.1 hread
  obtain ⟨_, _, hfields₄, -, rfl⟩ := Checked.seq_eq_valid_iff.1 hfields
  obtain ⟨_, _, hfields₃, -, rfl⟩ := Checked.seq_eq_valid_iff.1 hfields₄
  obtain ⟨_, _, hfields₂, -, rfl⟩ := Checked.seq_eq_valid_iff.1 hfields₃
  obtain ⟨_, _, hfields₁, -, rfl⟩ := Checked.seq_eq_valid_iff.1 hfields₂
  obtain ⟨version, hversion, rfl⟩ := Checked.map_eq_valid_iff.1 hfields₁
  unfold required at hversion
  split at hversion
  · next name value hfind =>
    have htext := Checked.under_eq_valid_iff.1 hversion
    unfold Schema.text at htext
    split at htext
    · next s =>
      obtain rfl := Checked.valid.inj htext
      unfold FieldName.find? at hfind
      split at hfind
      · next hwire =>
        obtain ⟨-, rfl⟩ := Prod.mk.inj (Option.some.inj hfind)
        exact mem_of_find hwire
      · obtain ⟨_, hplain, heq⟩ := Option.map_eq_some_iff.1 hfind
        obtain ⟨-, rfl⟩ := Prod.mk.inj heq
        exact mem_of_find hplain
    · cases htext
  · cases Checked.under_eq_valid_iff.1 hversion

/-- **A version with a quote is the text of an entry.** -/
theorem exists_of_parse (h : parse label text = .ok config) (hquote : '"' ∈ config.version) :
    ∃ entries, Yaml.parse text = .ok (.map entries) ∧
      (.text versionField.wire, .text config.version) ∈ entries := by
  unfold parse ofYaml at h
  split at h
  · cases h
  · cases h
  · next entries hyaml =>
    split at h
    · cases h
    · next shown hshown =>
      split at h
      · next hconfig =>
        obtain rfl := Except.ok.inj h
        exact ⟨entries, hyaml,
          mem_of_withDisplayedVersion hshown (mem_of_ofEntries hconfig) hquote⟩
      · cases h
  · cases h

end ProjectConfig

end YulPlus
