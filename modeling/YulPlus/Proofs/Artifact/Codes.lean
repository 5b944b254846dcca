import YulPlus.Artifact.Synthesis
import YulPlus.Proofs.Artifact.RoundTrip
import YulPlus.Proofs.Schema.Checks

/-!
# The codes of an artifact

Every code of an artifact has passed one check, whether the artifact was built from the answer of
the compiler or read from a text. The check lets one line feed pass behind the last digit, so what
it accepts (`IsAccepted`) is plain hexadecimal (`IsPlain`) exactly if there is no line feed in it. A
line feed in a code is one that the compiler reported, or that stood in the text. -/

namespace YulPlus

open Text

namespace Artifact

/-- Hexadecimal digits behind `0x`, up to the very end. -/
def IsPlain (code : Text) : Prop :=
  ∃ digits, code = emptyBytecode ++ digits ∧ ∀ c ∈ digits, isHexDigit c = true

/-- What the check of a code accepts: plain hexadecimal, and one line feed behind it. -/
def IsAccepted (code : Text) : Prop :=
  ∃ plain, IsPlain plain ∧ (code = plain ∨ code = plain ++ ['\n'])

end Artifact

/-- The code that a contract deploys, empty if none is reported. -/
def ContractOutput.deployedObject (contract : ContractOutput) : Text :=
  (contract.deployedBytecode.map (·.object)).getD []

namespace Artifact

section

variable {code s : Text} {a : Artifact}

/-! ### The check of a code -/

theorem isHexDigits_iff : isHexDigits s = true ↔
    ∃ digits, (∀ c ∈ digits, isHexDigit c = true) ∧ (s = digits ∨ s = digits ++ ['\n']) := by
  constructor
  · intro h
    induction s with
    | nil => exact ⟨[], nofun, .inl rfl⟩
    | cons c s ih =>
      rw [isHexDigits.eq_def] at h
      split at h
      · next heq => cases heq
      · next heq =>
        cases heq
        exact ⟨[], nofun, .inr rfl⟩
      · next c' rest _ heq =>
        cases heq
        rw [Bool.and_eq_true] at h
        obtain ⟨digits, hdigits, hs⟩ := ih h.2
        refine ⟨c :: digits, List.forall_mem_cons.mpr ⟨h.1, hdigits⟩, ?_⟩
        exact hs.imp (congrArg (c :: ·)) (congrArg (c :: ·))
  · rintro ⟨digits, hdigits, hs⟩
    induction digits generalizing s with
    | nil => rcases hs with rfl | rfl <;> rfl
    | cons c digits ih =>
      obtain ⟨hc, hdigits⟩ := List.forall_mem_cons.mp hdigits
      obtain ⟨rest, rfl, hrest⟩ :
          ∃ rest, s = c :: rest ∧ (rest = digits ∨ rest = digits ++ ['\n']) := by
        rcases hs with rfl | rfl
        · exact ⟨_, rfl, .inl rfl⟩
        · exact ⟨_, rfl, .inr rfl⟩
      have hrest : isHexDigits rest = true := ih hdigits hrest
      rw [isHexDigits.eq_def]
      split
      · rfl
      · rfl
      · next c' rest' _ heq =>
        cases heq
        rw [hc, hrest]
        rfl

theorem isHexLiteral_iff : isHexLiteral code = true ↔ IsAccepted code := by
  unfold isHexLiteral
  split
  · next digits =>
    rw [isHexDigits_iff]
    constructor
    · rintro ⟨plain, hplain, hdigits⟩
      refine ⟨emptyBytecode ++ plain, ⟨plain, rfl, hplain⟩, ?_⟩
      rcases hdigits with rfl | rfl
      · exact .inl rfl
      · exact .inr rfl
    · rintro ⟨_, ⟨plain, rfl, hplain⟩, hdigits⟩
      refine ⟨plain, hplain, ?_⟩
      rcases hdigits with h | h
      · cases h
        exact .inl rfl
      · cases h
        exact .inr rfl
  · next hne =>
    refine ⟨nofun, ?_⟩
    rintro ⟨_, ⟨plain, rfl, -⟩, rfl | rfl⟩
    · exact absurd rfl (hne plain)
    · exact absurd rfl (hne (plain ++ ['\n']))

theorem checkCode_eq_valid_iff {code' : Text} :
    checkCode code = .valid code' ↔ IsAccepted code ∧ code = code' := by
  rw [← isHexLiteral_iff, checkCode]
  split
  · next h => simp [h]
  · next h => simp [h, Schema.Checked.fail]

theorem IsPlain.lineFeed_notMem (h : IsPlain code) : '\n' ∉ code := by
  obtain ⟨digits, rfl, hdigits⟩ := h
  intro hmem
  rcases List.mem_append.mp hmem with hmem | hmem
  · exact absurd hmem (by decide)
  · exact absurd (hdigits _ hmem) (by decide)

/-- What the check accepts is plain, if there is no line feed in it. -/
theorem IsAccepted.isPlain_iff (h : IsAccepted code) : IsPlain code ↔ '\n' ∉ code := by
  refine ⟨IsPlain.lineFeed_notMem, fun hnot ↦ ?_⟩
  obtain ⟨plain, hplain, rfl | rfl⟩ := h
  · exact hplain
  · exact absurd (by simp) hnot

theorem lineFeed_mem_emptyBytecode_append {object : Text} :
    '\n' ∈ emptyBytecode ++ object ↔ '\n' ∈ object := by
  simp [emptyBytecode]

theorem IsAccepted.isPlain_object_iff {object : Text}
    (h : IsAccepted (emptyBytecode ++ object)) :
    IsPlain (emptyBytecode ++ object) ↔ '\n' ∉ object := by
  rw [h.isPlain_iff, lineFeed_mem_emptyBytecode_append]

/-- Without a line feed, only plain hexadecimal passes. -/
theorem isAccepted_iff_isPlain {object : Text} (h : '\n' ∉ object) :
    IsAccepted (emptyBytecode ++ object) ↔ IsPlain (emptyBytecode ++ object) :=
  ⟨fun haccepted ↦ haccepted.isPlain_object_iff.mpr h, fun hplain ↦ ⟨_, hplain, .inl rfl⟩⟩

/-! ### Where the codes come from -/

/-- Both codes of an artifact that was read have passed the check. -/
theorem isAccepted_of_ofValue {v : Value} (h : ofValue v = .valid a) :
    IsAccepted a.bytecode ∧ IsAccepted a.deployedBytecode := by
  have haccepted : ∀ {f : Schema.FieldName} {entries : List (Scalar × Value)} {code : Text},
      Schema.field f emptyBytecode codeOfValue entries = .valid code → IsAccepted code := by
    intro f entries code h
    rcases Schema.field_eq_valid_iff.mp h with ⟨_, v, -, h⟩ | ⟨-, rfl⟩
    · unfold codeOfValue at h
      split at h
      · obtain ⟨haccepted, rfl⟩ := checkCode_eq_valid_iff.mp h
        exact haccepted
      · cases h
    · exact ⟨emptyBytecode, ⟨[], rfl, nofun⟩, .inl rfl⟩
  -- The fields from the last to the first; the codes are the fifth and the sixth.
  obtain ⟨entries, -, h₉⟩ := Schema.record_eq_valid_iff.mp h
  obtain ⟨_, _, h₈, -, rfl⟩ := Schema.Checked.seq_eq_valid_iff.mp h₉
  obtain ⟨_, _, h₇, -, rfl⟩ := Schema.Checked.seq_eq_valid_iff.mp h₈
  obtain ⟨_, _, h₆, -, rfl⟩ := Schema.Checked.seq_eq_valid_iff.mp h₇
  obtain ⟨_, _, h₅, hdeployed, rfl⟩ := Schema.Checked.seq_eq_valid_iff.mp h₆
  obtain ⟨_, _, h₄, hbytecode, rfl⟩ := Schema.Checked.seq_eq_valid_iff.mp h₅
  obtain ⟨_, _, h₃, -, rfl⟩ := Schema.Checked.seq_eq_valid_iff.mp h₄
  obtain ⟨_, _, h₂, -, rfl⟩ := Schema.Checked.seq_eq_valid_iff.mp h₃
  obtain ⟨_, _, h₁, -, rfl⟩ := Schema.Checked.seq_eq_valid_iff.mp h₂
  obtain ⟨_, -, rfl⟩ := Schema.Checked.map_eq_valid_iff.mp h₁
  exact ⟨haccepted hbytecode, haccepted hdeployed⟩

theorem isAccepted_of_deserializeWithin {limit : Option Nat}
    (h : deserializeWithin limit s = .ok a) :
    IsAccepted a.bytecode ∧ IsAccepted a.deployedBytecode := by
  unfold deserializeWithin at h
  split at h
  · cases h
  · cases h
  · split at h
    · next hvalue =>
      cases h
      exact isAccepted_of_ofValue hvalue
    · cases h

end

end Artifact

section

variable {sourceName : Text} {output : CompilerOutput} {interface : Option Interface}
  {a : Artifact}

/-- A contract gives an artifact exactly if both codes pass the check. -/
theorem artifactOf_eq_valid_iff {abi : List Text} {contract : ContractOutput} :
    artifactOf sourceName abi contract = .valid a ↔
      Artifact.IsAccepted (Artifact.emptyBytecode ++ contract.bytecode.object) ∧
        Artifact.IsAccepted (Artifact.emptyBytecode ++ contract.deployedObject) ∧
        { contractName := contractName sourceName
          sourceName := sourceName
          abi := abi
          bytecode := Artifact.emptyBytecode ++ contract.bytecode.object
          deployedBytecode := Artifact.emptyBytecode ++ contract.deployedObject
          functionDebugData := contract.deployedBytecode.bind (·.functionDebugData) } = a := by
  simp only [artifactOf, Schema.Checked.seq_eq_valid_iff, Schema.Checked.map_eq_valid_iff,
    Schema.Checked.under_eq_valid_iff, Artifact.checkCode_eq_valid_iff]
  constructor
  · rintro ⟨_, _, ⟨_, ⟨hbytecode, rfl⟩, rfl⟩, ⟨hdeployed, rfl⟩, rfl⟩
    exact ⟨hbytecode, hdeployed, rfl⟩
  · rintro ⟨hbytecode, hdeployed, rfl⟩
    exact ⟨_, _, ⟨_, ⟨hbytecode, rfl⟩, rfl⟩, ⟨hdeployed, rfl⟩, rfl⟩

/-- An artifact comes of an answer with exactly one contract object. -/
theorem synthesize_eq_ok_iff : synthesize sourceName output interface = .ok a ↔
    ∃ name contract, output.objects = [(name, contract)] ∧
      artifactOf sourceName ((interface.map Interface.abi).getD []) contract = .valid a := by
  unfold synthesize
  split
  · next hobjects =>
    split <;> simp [hobjects]
  · next name contract hobjects =>
    rw [hobjects]
    split
    · next hartifact => simp [hartifact]
    · next hartifact => simp [hartifact]
  · next hnil hsingle =>
    refine ⟨nofun, ?_⟩
    rintro ⟨name, contract, hobjects, -⟩
    exact absurd hobjects (hsingle name contract)

end

namespace Artifact

/-- **The codes of an artifact are plain hexadecimal exactly if no line feed was handed in.**
Nothing but a line feed behind the digits passes the check, where the artifact is built from an
answer of the compiler and where it is read from a text. -/
theorem isPlain_codes_iff (sourceName s : Text) (output : CompilerOutput)
    (interface : Option Interface) (limit : Option Nat) (a : Artifact) :
    (synthesize sourceName output interface = .ok a →
      ∃ name contract, output.objects = [(name, contract)] ∧
        a.bytecode = emptyBytecode ++ contract.bytecode.object ∧
        a.deployedBytecode = emptyBytecode ++ contract.deployedObject ∧
        ∀ object ∈ [contract.bytecode.object, contract.deployedObject],
          IsAccepted (emptyBytecode ++ object) ∧
            (IsPlain (emptyBytecode ++ object) ↔ '\n' ∉ object)) ∧
      (deserializeWithin limit s = .ok a →
        ∀ code ∈ [a.bytecode, a.deployedBytecode], IsAccepted code ∧
          (IsPlain code ↔ '\n' ∉ code)) := by
  constructor
  · intro h
    obtain ⟨name, contract, hobjects, hartifact⟩ := synthesize_eq_ok_iff.mp h
    obtain ⟨hbytecode, hdeployed, rfl⟩ := artifactOf_eq_valid_iff.mp hartifact
    refine ⟨name, contract, hobjects, rfl, rfl, ?_⟩
    simpa using ⟨⟨hbytecode, hbytecode.isPlain_object_iff⟩, hdeployed, hdeployed.isPlain_object_iff⟩
  · intro h
    obtain ⟨hbytecode, hdeployed⟩ := isAccepted_of_deserializeWithin h
    simpa using ⟨⟨hbytecode, hbytecode.isPlain_iff⟩, hdeployed, hdeployed.isPlain_iff⟩

/-- A contract with digits of both cases and no deployed code, and the text of an artifact. -/
theorem isPlain_codes_iff_mixed :
    let output : CompilerOutput :=
      { contracts := [(targetFile, [(['a'], ⟨⟨"60Fe".toList, none⟩, none⟩)])] }
    let written : Artifact :=
      { contractName := ['a'], sourceName := "a.yul".toList, bytecode := "0x60Fe".toList }
    (∃ a, synthesize "a.yul".toList output none = .ok a ∧ IsPlain a.bytecode ∧
        IsPlain a.deployedBytecode) ∧
      ∃ a, deserialize written.serialize = .ok a ∧ IsPlain a.bytecode ∧
        IsPlain a.deployedBytecode := by
  intro output written
  constructor
  · obtain ⟨a, h⟩ : ∃ a, synthesize "a.yul".toList output none = .ok a := ⟨_, rfl⟩
    obtain ⟨name, contract, hobjects, hbytecode, hdeployed, hcodes⟩ :=
      (isPlain_codes_iff "a.yul".toList [] output none none a).1 h
    cases hobjects
    refine ⟨a, h, ?_, ?_⟩
    · exact hbytecode ▸ (hcodes _ (by simp)).2.mpr (by decide)
    · exact hdeployed ▸ (hcodes _ (by simp)).2.mpr (by decide)
  · have hempty : Json.Portable (some Decimal.maxDigits) (.record []) := .record _ (by simp) nofun
    have h : deserialize written.serialize = .ok written :=
      deserializeWithin_serialize ⟨by decide, by decide⟩ ⟨hempty, hempty, nofun⟩
    have hcodes := (isPlain_codes_iff [] _ output none _ written).2 h
    exact ⟨written, h, (hcodes _ (by simp)).2.mpr (by decide),
      (hcodes _ (by simp)).2.mpr (by decide)⟩

/-- A line feed behind the code that the compiler reports is in the code of the artifact. -/
theorem synthesize_keeps_lineFeed :
    let output : CompilerOutput :=
      { contracts := [(targetFile, [(['a'], ⟨⟨"60\n".toList, none⟩, none⟩)])] }
    ∃ a, synthesize "a.yul".toList output none = .ok a ∧ a.bytecode = "0x60\n".toList ∧
      ¬ IsPlain a.bytecode := by
  intro output
  refine ⟨_, rfl, rfl, fun h ↦ ?_⟩
  exact h.lineFeed_notMem (by decide)

end Artifact

end YulPlus
