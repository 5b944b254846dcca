import YulPlus.Artifact.Store
import YulPlus.Proofs.FileTree.Files
import YulPlus.Proofs.Json.RoundTrip
import YulPlus.Proofs.Schema.Records

/-!
# Artifacts that are read as they were written

The record of a contract is read from its text as it was (`deserializeWithin_serialize`), also
through a file (`serialize_roundTrip`). Debug data that is absent, empty or null inside stays apart:
the entry is left out only if there is none. What a file changes about a text, its carriage returns,
does not occur in the text of an artifact. -/

namespace YulPlus

open Text

namespace Artifact

/-- Both codes are hexadecimal literals. -/
structure Valid (a : Artifact) : Prop where
  bytecode : isHexLiteral a.bytecode = true
  deployedBytecode : isHexLiteral a.deployedBytecode = true

/-- The open maps are read as they are written. -/
structure Portable (limit : Option Nat) (a : Artifact) : Prop where
  linkReferences : Json.Portable limit (.record a.linkReferences)
  deployedLinkReferences : Json.Portable limit (.record a.deployedLinkReferences)
  functionDebugData : ∀ data ∈ a.functionDebugData, Json.Portable limit (.record data)

variable {limit : Option Nat} {a : Artifact}

/-- The fields of an artifact, the debug data last if there are any. -/
def fieldsOf (a : Artifact) : List (String × Value) :=
  [ ("_format", .text a.format),
    ("contractName", .text a.contractName),
    ("sourceName", .text a.sourceName),
    ("abi", .list (a.abi.map Value.text)),
    ("bytecode", .text a.bytecode),
    ("deployedBytecode", .text a.deployedBytecode),
    ("linkReferences", .record a.linkReferences),
    ("deployedLinkReferences", .record a.deployedLinkReferences) ] ++
  (a.functionDebugData.map fun data ↦ ("functionDebugData", Value.record data)).toList

theorem toValue_eq (a : Artifact) : a.toValue = .fields a.fieldsOf := by
  rw [toValue, fieldsOf]
  cases a.functionDebugData <;> rfl

theorem Portable.toValue (h : a.Portable limit) : Json.Portable limit a.toValue := by
  have habi : Json.Portable limit (.list (a.abi.map Value.text)) :=
    .list _ (List.forall_mem_map.mpr fun s _ ↦ .text s)
  rw [toValue_eq]
  refine .fields ?_ ?_
  · cases hdebug : a.functionDebugData <;> simp [fieldsOf, hdebug]
  · simp only [fieldsOf, List.forall_mem_append, List.forall_mem_cons]
    refine ⟨⟨.text _, .text _, .text _, habi, .text _, .text _, h.linkReferences,
      h.deployedLinkReferences, nofun⟩, fun entry hentry ↦ ?_⟩
    obtain ⟨data, hdata, rfl⟩ := Option.map_eq_some_iff.mp (Option.mem_toList.mp hentry)
    exact h.functionDebugData data hdata

theorem codeOfValue_text {code : Text} (h : isHexLiteral code = true) :
    codeOfValue (.text code) = .valid code := by
  simp [codeOfValue, Value.text, Schema.text, checkCode, h]

/-- An artifact is checked to itself. -/
theorem ofValue_toValue (h : a.Valid) : ofValue a.toValue = .valid a := by
  have hdata : Schema.field (.either "functionDebugData" "function_debug_data") none
      (Schema.optional (Schema.mapOf Schema.anything)) (Schema.entriesOf a.fieldsOf) =
      .valid a.functionDebugData := by
    cases hdebug : a.functionDebugData with
    | none => exact Schema.field_of_absent (by simp [fieldsOf, hdebug]) (by simp [fieldsOf, hdebug])
    | some data =>
      refine Schema.field_of_find (v := .record data) (by simp [fieldsOf, hdebug]) ?_
      show some <$> Schema.mapOf Schema.anything (.record data) = _
      rw [Schema.mapOf_record]
      rfl
  rw [toValue_eq, Schema.fields_eq_map]
  simp only [ofValue, Schema.record, Schema.object, Schema.single_eq]
  rw [Schema.field_of_find (v := .text a.format) (by simp [fieldsOf]) (Schema.text_text _),
    Schema.required_of_find (v := .text a.contractName) (by simp [fieldsOf]) (Schema.text_text _),
    Schema.required_of_find (v := .text a.sourceName) (by simp [fieldsOf]) (Schema.text_text _),
    Schema.field_of_find (v := .list (a.abi.map Value.text)) (by simp [fieldsOf])
      (Schema.list_text a.abi),
    Schema.field_of_find (v := .text a.bytecode) (by simp [fieldsOf]) (codeOfValue_text h.bytecode),
    Schema.field_of_find (v := .text a.deployedBytecode) (by simp [fieldsOf])
      (codeOfValue_text h.deployedBytecode),
    Schema.field_of_find (v := .record a.linkReferences) (by simp [fieldsOf])
      (Schema.mapOf_record a.linkReferences),
    Schema.field_of_find (v := .record a.deployedLinkReferences) (by simp [fieldsOf])
      (Schema.mapOf_record a.deployedLinkReferences), hdata]
  rfl

/-- **An artifact is read from its text as it was.** -/
theorem deserializeWithin_serialize (h : a.Valid) (hp : a.Portable limit) :
    deserializeWithin limit a.serialize = .ok a := by
  rw [deserializeWithin, serialize, Json.parseWithin_indented hp.toValue]
  simp only [ofValue_toValue h]

theorem return_not_mem_serialize (hp : a.Portable limit) : '\r' ∉ a.serialize := by
  have hvalue : '\r' ∉ Json.indented a.toValue := hp.toValue.return_not_mem_indentedAt 0
  simpa [serialize] using hvalue

/-! ### Through a file -/

/-- Writing an artifact writes its text in a tree that has the directories. -/
theorem exists_of_write {t t' : FileTree} {p : Path} (h : a.write t p = (t', none)) :
    ∃ t₁, t.ensureDirectories p.parent = (t₁, none) ∧ t₁.writeText p a.serialize = .ok t' := by
  unfold write at h
  split at h
  · cases h
  · next t₁ hdirectories =>
    split at h
    · next hwrite =>
      cases h
      exact ⟨t₁, hdirectories, hwrite⟩
    · cases h

/-- What was written is read. -/
theorem readWithin_of_write {t t' : FileTree} {p : Path} (h : a.Valid) (hp : a.Portable limit)
    (hwrite : a.write t p = (t', none)) : readWithin limit t' p = .ok a := by
  obtain ⟨t₁, -, htext⟩ := exists_of_write hwrite
  rw [readWithin, FileTree.readText_of_writeText htext (return_not_mem_serialize hp)]
  simp only [deserializeWithin_serialize h hp]

/-- **An artifact can be written** below a directory where nothing stands in the way: the
directories are made, and the file gets its text. -/
theorem exists_write {t : FileTree} {parts names : List Text} {l : Location} {name : Text}
    (ho : t.Opens parts l) (hfree : t.Free l names)
    (hnames : ∀ n ∈ names ++ [name], n ≠ ['.', '.'])
    (hlast : t.Vacant (l ++ (names ++ [name]))) (a : Artifact) (root : Text) :
    ∃ t', a.write t ⟨root, parts ++ (names ++ [name])⟩ = (t', none) ∧
      t.PutBelow t' l names name (Utf8.encode a.serialize) := by
  obtain ⟨t₁, hdirectories, hmade⟩ := FileTree.exists_ensureDirectoriesFrom root ho hfree
    fun n hn ↦ hnames n (List.mem_append_left _ hn)
  have hparent : Path.parent ⟨root, parts ++ (names ++ [name])⟩ = ⟨root, parts ++ names⟩ := by
    rw [Path.parent, ← List.append_assoc, List.dropLast_concat]
  have hkept : t₁.lookup (l ++ (names ++ [name])) = t.lookup (l ++ (names ++ [name])) :=
    hmade.other _ fun m hm ↦ FileTree.append_concat_ne hm
  have htext : t₁.writeText ⟨root, parts ++ (names ++ [name])⟩ a.serialize =
      .ok (t₁.insert (l ++ (names ++ [name])) (.file (Utf8.encode a.serialize))) :=
    FileTree.writeBytes_of_opens ((hmade.keeps hfree).opens ho) hnames hmade.made
      (by rwa [FileTree.Vacant, hkept])
  refine ⟨_, ?_, hmade.putBelow hfree hlast⟩
  rw [write, hparent, FileTree.ensureDirectories, hdirectories]
  simp only [htext]

/-- **Artifacts are read as they were written**, from their texts and from files: from every file
that was written, and a file can be written below any directory where nothing stands in the way. -/
theorem serialize_roundTrip (h : a.Valid) (hp : a.Portable limit) :
    deserializeWithin limit a.serialize = .ok a ∧
      (∀ t t' p, a.write t p = (t', none) → readWithin limit t' p = .ok a) ∧
      ∀ (t : FileTree) (parts names : List Text) (l : Location) (name root : Text),
        t.Opens parts l → t.Free l names → (∀ n ∈ names ++ [name], n ≠ ['.', '.']) →
        t.Vacant (l ++ (names ++ [name])) →
        ∃ t', a.write t ⟨root, parts ++ (names ++ [name])⟩ = (t', none) ∧
          readWithin limit t' ⟨root, parts ++ (names ++ [name])⟩ = .ok a := by
  have hread : ∀ t t' p, a.write t p = (t', none) → readWithin limit t' p = .ok a :=
    fun _ _ _ ↦ readWithin_of_write h hp
  refine ⟨deserializeWithin_serialize h hp, hread, ?_⟩
  intro t parts names l name root ho hfree hnames hlast
  obtain ⟨t', hwrite, -⟩ := exists_write ho hfree hnames hlast a root
  exact ⟨_, hwrite, hread _ _ _ hwrite⟩

/-- A text with a quote, a control, a carriage return and a character beyond U+FFFF; debug data with
a null, a negative integer, and empty containers. -/
theorem serialize_roundTrip_nested :
    let a : Artifact :=
      { contractName := ['"', '\x00', '\r', '😀'], sourceName := "a.yul".toList,
        bytecode := "0x60Fe".toList,
        functionDebugData := some [([], .list [.null, .int (-7), .record [], .list []])] }
    a.Valid ∧ a.Portable (some Decimal.maxDigits) ∧ deserialize a.serialize = .ok a ∧
      ∃ t', a.write {} ⟨['/'], [['d'], ['f']]⟩ = (t', none) ∧
        readFrom t' ⟨['/'], [['d'], ['f']]⟩ = .ok a := by
  intro a
  have hvalid : a.Valid := ⟨by decide, by decide⟩
  have hitems : Json.Portable (some Decimal.maxDigits)
      (.list [.null, .int (-7), .record [], .list []]) := by
    have hrecord : Json.Portable (some Decimal.maxDigits) (.record []) := .record _ (by simp) nofun
    have hlist : Json.Portable (some Decimal.maxDigits) (.list []) := .list _ nofun
    exact .list _ (by simpa using ⟨.null, .int (-7) (by decide), hrecord, hlist⟩)
  have hp : a.Portable (some Decimal.maxDigits) := by
    refine ⟨.record _ (by simp [a]) (by simp [a]), .record _ (by simp [a]) (by simp [a]), ?_⟩
    rintro _ ⟨⟩
    exact .record _ (by simp) (by simpa using hitems)
  obtain ⟨htext, -, hfile⟩ := serialize_roundTrip hvalid hp
  refine ⟨hvalid, hp, htext, ?_⟩
  have hnothing : ∀ m, m ≠ [] → FileTree.lookup {} m = none := fun m hm ↦ by
    simp [FileTree.lookup, hm]
  refine hfile {} [] [['d']] [] ['f'] ['/'] ⟨.arrived, rfl⟩ (fun m _ ↦ ?_) (by decide)
    (.inl (hnothing _ (by simp)))
  rcases eq_or_ne m [] with rfl | hm
  · exact .inr rfl
  · exact .inl (hnothing _ (by simpa using hm))

end Artifact

end YulPlus
