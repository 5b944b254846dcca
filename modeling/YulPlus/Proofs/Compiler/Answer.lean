import YulPlus.Compiler.Output
import YulPlus.Proofs.Json.Limit
import YulPlus.Proofs.Schema.Checks
import YulPlus.Proofs.Schema.Extended

/-!
# Undeclared fields in an answer

Compilers report more than is read here. An answer `Extends` another one if it has more fields
that are not declared, in any of its objects: at the top, in the contracts, in their code objects
and in the diagnostics. Both are read to the same output or refused for the same faults. The keys
of the open maps between these objects are no fields; they are kept as data (`Keeps`).

A field that is passed over is still read as JSON, so an integer of too many digits in it is no
longer passed over: then the text is refused (`CompilerOutput.parse_of_extends`). -/

namespace YulPlus

open Schema

/-! ### Extended answers -/

/-- A code object with more fields. -/
def Bytecode.Extends : Value → Value → Prop :=
  ExtendsObject [(.single "object", Eq), (.either "functionDebugData" "function_debug_data", Eq)]

/-- Code objects with more fields, beside other fields. -/
def ContractOutput.EvmExtends : Value → Value → Prop :=
  ExtendsObject [(.single "bytecode", Bytecode.Extends),
    (.either "deployedBytecode" "deployed_bytecode", Bytecode.Extends)]

/-- A contract object with more fields. -/
def ContractOutput.Extends : Value → Value → Prop :=
  ExtendsObject [(.single "evm", EvmExtends)]

/-- A diagnostic with more fields. -/
def Diagnostic.Extends : Value → Value → Prop :=
  ExtendsObject [(.single "severity", Eq), (.single "message", Eq),
    (.either "formattedMessage" "formatted_message", Eq), (.single "type", Eq),
    (.single "component", Eq)]

/-- An answer with more fields at every level. -/
def CompilerOutput.Extends : Value → Value → Prop :=
  ExtendsObject [(.single "contracts", ExtendsMap (ExtendsMap ContractOutput.Extends)),
    (.single "errors", ExtendsItems Diagnostic.Extends)]

/-! ### What is kept of an answer -/

/-- The debug data of a code object are kept as they are. -/
def Bytecode.Keeps (v : Value) (code : Bytecode) : Prop :=
  ∀ w, (FieldName.either "functionDebugData" "function_debug_data").Holds v w → w ≠ .null →
    ∃ details, code.functionDebugData = some details ∧ w = .record details

/-- The debug data in both code objects of a contract are kept. -/
def ContractOutput.Keeps (v : Value) (contract : ContractOutput) : Prop :=
  ∀ evm, (FieldName.single "evm").Holds v evm →
    (∀ w, (FieldName.single "bytecode").Holds evm w → contract.bytecode.Keeps w) ∧
      ∀ w, (FieldName.either "deployedBytecode" "deployed_bytecode").Holds evm w → w ≠ .null →
        ∃ code, contract.deployedBytecode = some code ∧ code.Keeps w

/-- Every file of an answer is kept, and under it every contract, in order. -/
def CompilerOutput.Keeps (v : Value) (output : CompilerOutput) : Prop :=
  ∀ w, (FieldName.single "contracts").Holds v w → ∃ files, w = .map files ∧
    List.Forall₂ (fun file kept ↦ file.1 = .text kept.1 ∧ ∃ objects, file.2 = .map objects ∧
      List.Forall₂ (fun object kept ↦ object.1 = .text kept.1 ∧
        ContractOutput.Keeps object.2 kept.2) objects kept.2) files output.contracts

section

variable {v v' : Value} {s s' : Text}

/-! ### Undeclared fields are passed over -/

theorem Bytecode.Extends.ofValue_eq (h : Bytecode.Extends v v') :
    Bytecode.ofValue v' = Bytecode.ofValue v := by
  refine h.record_eq fun entries entries' h ↦ ?_
  rw [h.field_eq (.head _) (by simp), h.field_eq (.tail _ (.head _)) (by simp)]

theorem ContractOutput.EvmExtends.ofEvmValue_eq (h : ContractOutput.EvmExtends v v') :
    ContractOutput.ofEvmValue v' = ContractOutput.ofEvmValue v := by
  refine h.record_eq fun entries entries' h ↦ ?_
  rw [h.field_eq (.head _) fun _ _ ↦ Bytecode.Extends.ofValue_eq,
    h.field_eq (.tail _ (.head _)) fun _ _ h ↦ h.optional_eq h.ofValue_eq]

theorem ContractOutput.Extends.ofValue_eq (h : ContractOutput.Extends v v') :
    ContractOutput.ofValue v' = ContractOutput.ofValue v :=
  h.record_eq fun _ _ h ↦ h.field_eq (.head _) fun _ _ ↦ EvmExtends.ofEvmValue_eq

theorem Diagnostic.Extends.ofValue_eq (h : Diagnostic.Extends v v') :
    Diagnostic.ofValue v' = Diagnostic.ofValue v := by
  refine h.record_eq fun entries entries' h ↦ ?_
  have hfield : ∀ {α : Type} {f : FieldName} {default : α} {check : Value → Checked α},
      (f, Eq) ∈ _ → field f default check entries' = field f default check entries :=
    fun hmem ↦ h.field_eq hmem (by simp)
  rw [h.required_eq (.head _) (by simp), hfield (by simp), hfield (by simp), hfield (by simp),
    hfield (by simp)]

theorem CompilerOutput.Extends.ofValue_eq (h : CompilerOutput.Extends v v') :
    CompilerOutput.ofValue v' = CompilerOutput.ofValue v := by
  refine h.record_eq fun entries entries' h ↦ ?_
  rw [h.field_eq (.head _) fun _ _ h ↦
      h.mapOf_eq fun _ _ h ↦ h.mapOf_eq fun _ _ ↦ ContractOutput.Extends.ofValue_eq,
    h.field_eq (.tail _ (.head _)) fun _ _ h ↦ h.list_eq fun _ _ ↦ Diagnostic.Extends.ofValue_eq]

/-! ### Data are kept -/

theorem Bytecode.keeps_of_ofValue {code : Bytecode} (h : Bytecode.ofValue v = .valid code) :
    code.Keeps v := by
  intro w hw hnull
  obtain ⟨entries, rfl, h⟩ := record_eq_valid_iff.mp h
  obtain ⟨_, details, hobject, hdetails, rfl⟩ := Checked.seq_eq_valid_iff.mp h
  obtain ⟨_, -, rfl⟩ := Checked.map_eq_valid_iff.mp hobject
  obtain ⟨details, rfl, hcheck⟩ := exists_of_optional (check_eq_valid_of_field hdetails hw) hnull
  exact ⟨details, rfl, eq_record_of_mapOf_anything hcheck⟩

theorem ContractOutput.keeps_of_ofValue {contract : ContractOutput}
    (h : ContractOutput.ofValue v = .valid contract) : ContractOutput.Keeps v contract := by
  intro evm hevm
  obtain ⟨entries, rfl, h⟩ := record_eq_valid_iff.mp h
  obtain ⟨entries, rfl, h⟩ := record_eq_valid_iff.mp (check_eq_valid_of_field h hevm)
  obtain ⟨_, _, hfirst, hdeployed, rfl⟩ := Checked.seq_eq_valid_iff.mp h
  obtain ⟨_, hbytecode, rfl⟩ := Checked.map_eq_valid_iff.mp hfirst
  refine ⟨fun w hw ↦ ?_, fun w hw hnull ↦ ?_⟩
  · exact Bytecode.keeps_of_ofValue (check_eq_valid_of_field hbytecode hw)
  · obtain ⟨code, rfl, hcode⟩ := exists_of_optional (check_eq_valid_of_field hdeployed hw) hnull
    exact ⟨code, rfl, Bytecode.keeps_of_ofValue hcode⟩

theorem CompilerOutput.keeps_of_ofValue {output : CompilerOutput}
    (h : CompilerOutput.ofValue v = .valid output) : output.Keeps v := by
  intro w hw
  obtain ⟨entries, rfl, h⟩ := record_eq_valid_iff.mp h
  obtain ⟨_, _, hfirst, -, rfl⟩ := Checked.seq_eq_valid_iff.mp h
  obtain ⟨_, hcontracts, rfl⟩ := Checked.map_eq_valid_iff.mp hfirst
  obtain ⟨files, rfl, hfiles⟩ := mapOf_eq_valid_iff.mp (check_eq_valid_of_field hcontracts hw)
  refine ⟨files, rfl, hfiles.imp fun file kept ⟨hfile, hobjects⟩ ↦ ⟨hfile, ?_⟩⟩
  obtain ⟨objects, hmap, hobjects⟩ := mapOf_eq_valid_iff.mp hobjects
  exact ⟨objects, hmap, hobjects.imp fun object kept ⟨hobject, hcontract⟩ ↦
    ⟨hobject, ContractOutput.keeps_of_ofValue hcontract⟩⟩

/-! ### Texts -/

theorem CompilerOutput.parse_of_oversized (hs : Json.parseWithin none s = .ok v)
    (hover : Json.Oversized (some Decimal.maxDigits) s) :
    ∃ digits, Decimal.maxDigits < digits ∧ parse s = .error (.tooManyDigits digits) := by
  obtain ⟨digits, hmore, hparse⟩ := (Json.parse_of_parseWithin_none hs).2 hover
  exact ⟨digits, hmore, by simp only [parse, hparse]⟩

/-- The output of a text that the reader takes keeps the data of its value. -/
theorem CompilerOutput.keeps_of_parse {output : CompilerOutput}
    (hs : Json.parseWithin none s = .ok v) (h : parse s = .ok output) : output.Keeps v := by
  by_cases hover : Json.Oversized (some Decimal.maxDigits) s
  · obtain ⟨_, -, hrefused⟩ := parse_of_oversized hs hover
    cases h.symm.trans hrefused
  · simp only [parse, (Json.parse_of_parseWithin_none hs).1 hover] at h
    split at h
    · next hvalue =>
      cases h
      exact keeps_of_ofValue hvalue
    · cases h

/-- An object whose only field is an integer of too many digits. -/
theorem CompilerOutput.parse_oversized {c : Char} {digits key : Text}
    (hc : Json.isAsciiDigit c = true) (hzero : c ≠ '0')
    (hdigits : ∀ d ∈ digits, Json.isAsciiDigit d = true)
    (hmore : Decimal.maxDigits < (c :: digits).length)
    (hs : s = '\x7b' :: (Json.encodeString Json.isPlain key ++ ':' :: c :: digits ++ ['\x7d'])) :
    Json.parseWithin none s = .ok (.record [(key, .int (Json.numberOfAscii (c :: digits)))]) ∧
      parse s = .error (.tooManyDigits (c :: digits).length) := by
  have htokens : ∀ limit, Json.tokens? limit s = some [.openBrace, .scalar (.text key), .colon,
      if Json.isOversized limit (c :: digits) then .oversized (c :: digits).length
      else .scalar (.int (Json.numberOfAscii (c :: digits))), .closeBrace] := by
    intro limit
    have hkey : Json.Spells limit (Json.encodeString Json.isPlain key) [.scalar (.text key)] :=
      .text (fun _ hplain ↦ by simpa [Json.isPlain] using hplain) key
    have hnumber : Json.Spells limit (':' :: c :: digits) (.colon :: _) :=
      .mark (by decide) (fun _ ↦ rfl) (Json.spells_digits hc hzero hdigits)
    have hentry := hkey.append hnumber fun _ _ ↦ Json.ends_cons.mpr (by decide)
    have hgap : ∀ c ∈ ([] : Text), Json.isSpace c = true :=
      fun _ hc ↦ absurd hc List.not_mem_nil
    have hmap := Json.spells_map hgap hgap hentry
    simpa [hs] using hmap [] [] Json.ends_nil (by simp [Json.tokens?])
  have hover : Json.isOversized (some Decimal.maxDigits) (c :: digits) = true :=
    decide_eq_true hmore
  have hparse : Json.parse s = .error (.tooManyDigits (c :: digits).length) := by
    simp only [Json.parse, Json.parseWithin, htokens, hover]
    rfl
  constructor
  · simp only [Json.parseWithin, htokens]
    rfl
  · rw [parse, hparse]

/-- **Undeclared fields are passed over at every level, and the keys of open maps are kept.** Only
the number of digits of an integer counts wherever the integer stands. -/
theorem CompilerOutput.parse_of_extends (h : CompilerOutput.Extends v v')
    (hs : Json.parseWithin none s = .ok v) (hs' : Json.parseWithin none s' = .ok v') :
    (¬ Json.Oversized (some Decimal.maxDigits) s → ¬ Json.Oversized (some Decimal.maxDigits) s' →
        parse s' = parse s) ∧
      (∀ t ∈ [s, s'], Json.Oversized (some Decimal.maxDigits) t →
        ∃ digits, Decimal.maxDigits < digits ∧ parse t = .error (.tooManyDigits digits)) ∧
      ∀ output, (parse s = .ok output → output.Keeps v) ∧
        (parse s' = .ok output → output.Keeps v') := by
  refine ⟨fun hread hread' ↦ ?_, fun t ht hover ↦ ?_, fun output ↦
    ⟨keeps_of_parse hs, keeps_of_parse hs'⟩⟩
  · have hparse : Json.parse s = .ok v := (Json.parse_of_parseWithin_none hs).1 hread
    have hparse' : Json.parse s' = .ok v' := (Json.parse_of_parseWithin_none hs').1 hread'
    simp only [parse, hparse, hparse', h.ofValue_eq]
  · rcases List.mem_pair.mp ht with rfl | rfl
    · exact parse_of_oversized hs hover
    · exact parse_of_oversized hs' hover

/-- An answer with a contract and a warning, and one with a further field in each of its objects. -/
theorem CompilerOutput.parse_of_extends_nested :
    let answer := fun extra : List (String × Value) ↦
      let object := fun fields ↦ Value.fields (extra ++ fields)
      let data := Value.fields [("f", .null)]
      let code := object [("object", .text ['6', '0']), ("functionDebugData", data)]
      let contract := object [("evm", object [("bytecode", code)])]
      let diagnostic := object [("severity", .text "warning".toList)]
      object [("contracts", .fields [("Target.yul", .fields [("a", contract)])]),
        ("errors", .list [diagnostic])]
    let v := answer []
    let v' := answer [("x", .list [])]
    ∃ output, parse (Json.compact v) = .ok output ∧ parse (Json.compact v') = .ok output ∧
      output.Keeps v' := by
  intro answer v v'
  have hportable : ∀ {limit : Option Nat} {extra : List (String × Value)},
      extra = [] ∨ extra = [("x", .list [])] → Json.Portable limit (answer extra) := by
    intro limit extra hextra
    have htext : ∀ s, Json.Portable limit (.text s) := .text
    have hdata : Json.Portable limit (.fields [("f", .null)]) :=
      .fields (by simp) (by simpa using .null)
    have hobject : ∀ fields : List (String × Value), ("x" :: fields.map (·.1)).Nodup →
        (∀ e ∈ fields, Json.Portable limit e.2) →
        Json.Portable limit (.fields (extra ++ fields)) := by
      intro fields hnodup hfields
      rcases hextra with rfl | rfl
      · exact .fields (List.Nodup.of_cons hnodup) hfields
      · exact .fields hnodup (List.forall_mem_cons.mpr ⟨.list _ nofun, hfields⟩)
    have hcode := hobject [("object", .text ['6', '0']), ("functionDebugData", _)] (by simp)
      (List.forall_mem_cons.mpr ⟨htext _, List.forall_mem_singleton.mpr hdata⟩)
    have hevm := hobject [("bytecode", _)] (by simp) (List.forall_mem_singleton.mpr hcode)
    have hcontract := hobject [("evm", _)] (by simp) (List.forall_mem_singleton.mpr hevm)
    have hfile : Json.Portable limit (.fields [("a", _)]) :=
      .fields (by simp) (List.forall_mem_singleton.mpr hcontract)
    have hcontracts : Json.Portable limit (.fields [("Target.yul", _)]) :=
      .fields (by simp) (List.forall_mem_singleton.mpr hfile)
    have hdiagnostic := hobject [("severity", .text "warning".toList)] (by simp) (by simp [htext])
    have herrors : Json.Portable limit (.list [_]) :=
      .list _ (List.forall_mem_singleton.mpr hdiagnostic)
    exact hobject [("contracts", _), ("errors", _)] (by simp)
      (List.forall_mem_cons.mpr ⟨hcontracts, List.forall_mem_singleton.mpr herrors⟩)
  have hextends : CompilerOutput.Extends v v' := by
    have hcode : ∀ object data, Bytecode.Extends
        (.fields [("object", object), ("functionDebugData", data)])
        (.fields [("x", .list []), ("object", object), ("functionDebugData", data)]) := by
      intro object data
      refine ExtendsObject.entries (.added ?_ (.kept ?_ (.kept ?_ .nil))) <;>
        simp [FieldName.IsSpelling, FieldName.single, FieldName.either]
    have hevm : ∀ code code', Bytecode.Extends code code' → ContractOutput.EvmExtends
        (.fields [("bytecode", code)]) (.fields [("x", .list []), ("bytecode", code')]) := by
      intro code code' h
      refine ExtendsObject.entries (.added ?_ (.kept ?_ .nil)) <;>
        simp [FieldName.IsSpelling, FieldName.single, FieldName.either, h]
    have hcontract : ∀ evm evm', ContractOutput.EvmExtends evm evm' → ContractOutput.Extends
        (.fields [("evm", evm)]) (.fields [("x", .list []), ("evm", evm')]) := by
      intro evm evm' h
      refine ExtendsObject.entries (.added ?_ (.kept ?_ .nil)) <;>
        simp [FieldName.IsSpelling, FieldName.single, h]
    have hdiagnostic : ∀ severity, Diagnostic.Extends
        (.fields [("severity", severity)]) (.fields [("x", .list []), ("severity", severity)]) := by
      intro severity
      refine ExtendsObject.entries (.added ?_ (.kept ?_ .nil)) <;>
        simp [FieldName.IsSpelling, FieldName.single, FieldName.either]
    have hanswer : ∀ contracts contracts' errors errors',
        ExtendsMap (ExtendsMap ContractOutput.Extends) contracts contracts' →
        ExtendsItems Diagnostic.Extends errors errors' → CompilerOutput.Extends
          (.fields [("contracts", contracts), ("errors", errors)])
          (.fields [("x", .list []), ("contracts", contracts'), ("errors", errors')]) := by
      intro contracts contracts' errors errors' h h'
      refine ExtendsObject.entries (.added ?_ (.kept ?_ (.kept ?_ .nil))) <;>
        simp [FieldName.IsSpelling, FieldName.single, h, h']
    refine hanswer _ _ _ _ (.entries (.cons ⟨rfl, .entries (.cons ⟨rfl, ?_⟩ .nil)⟩ .nil))
      (.items (.cons (hdiagnostic _) .nil))
    exact hcontract _ _ (hevm _ _ (hcode _ _))
  obtain ⟨hsame, -, hkeeps⟩ := parse_of_extends hextends
    (Json.parseWithin_compact (hportable (.inl rfl)))
    (Json.parseWithin_compact (hportable (.inr rfl)))
  have hparse' := hsame (Json.not_oversized_compact (hportable (.inl rfl)) (hportable (.inl rfl)))
    (Json.not_oversized_compact (hportable (.inr rfl)) (hportable (.inr rfl)))
  have hv : Json.parse (Json.compact v) = .ok v := Json.parseWithin_compact (hportable (.inl rfl))
  obtain ⟨output, houtput⟩ : ∃ output, parse (Json.compact v) = .ok output := by
    rw [parse, hv]
    exact ⟨_, rfl⟩
  rw [houtput] at hparse'
  exact ⟨output, houtput, hparse', (hkeeps output).2 hparse'⟩

/-- A number with a digit more than the reader takes, in a field that no object declares. -/
theorem CompilerOutput.parse_refuses_undeclared :
    let digits : Text := '1' :: List.replicate 4300 '0'
    let s : Text := "\x7b\"x\":".toList ++ digits ++ "\x7d".toList
    let v : Value := .record [(['x'], .int (Json.numberOfAscii digits))]
    CompilerOutput.Extends (.record []) v ∧ Json.parseWithin none s = .ok v ∧
      Json.parseWithin none "\x7b\x7d".toList = .ok (.record []) ∧
      parse "\x7b\x7d".toList = .ok {} ∧ parse s = .error (.tooManyDigits 4301) := by
  intro digits s v
  have hempty : Json.Portable (some Decimal.maxDigits) (.record []) ∧
      Json.Portable none (.record []) :=
    ⟨.record _ (by simp) nofun, .record _ (by simp) nofun⟩
  have hlength : digits.length = 4301 := by
    rw [List.length_cons, List.length_replicate]
  have hdigits : ∀ d ∈ List.replicate 4300 '0', Json.isAsciiDigit d = true := by
    intro d hd
    rw [List.eq_of_mem_replicate hd]
    rfl
  have hmore : Decimal.maxDigits < digits.length := by
    rw [hlength]
    decide
  obtain ⟨hread, hrefused⟩ := @parse_oversized s _ _ ['x'] rfl (by decide) hdigits hmore rfl
  refine ⟨.entries (.added ?_ .nil), hread, Json.parseWithin_compact hempty.2, ?_, ?_⟩
  · simp [FieldName.IsSpelling, FieldName.single]
  · have hparse : Json.parse "\x7b\x7d".toList = .ok (.record []) :=
      Json.parseWithin_compact hempty.1
    rw [parse, hparse]
    rfl
  · rw [hrefused]
    exact congrArg _ (congrArg _ hlength)

end

end YulPlus
