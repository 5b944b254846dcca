import YulPlus.Proofs.Lowering.Grammar
import YulPlus.Proofs.Lowering.Hashes
import YulPlus.Proofs.Source.Composed
import YulPlus.Proofs.Text.Digits
import YulPlus.Proofs.Yul.Evaluation

/-!
# The text that lowering writes

Apart from the source itself, the lowered code consists of hashes, of decimal numbers and of the
functions that are inserted into scopes. The functions of a struct, and the one that reads memory,
are written here as functions of Yul, and the texts are read as these, whatever the names of the
struct and of its fields are (`Struct.lexes_accessors`, `lexes_sliceHelper`). So each text is the
definition of one function (`IsFunction`), and the names that it mentions are known. Inserted
functions stay apart since each is on lines of its own (`lexes_joinWith`). -/

namespace YulPlus

open Text Yul

/-! ### Hashes -/

/-- A hexadecimal literal of one byte at least. -/
theorem exists_digits_hexLiteral {bytes : List UInt8} (h : bytes ≠ []) :
    ∃ digits, Signature.hexLiteral bytes = '0' :: 'x' :: digits ∧ digits ≠ [] ∧
      ∀ c ∈ digits, isHexDigit c = true := by
  obtain ⟨b, bytes, rfl⟩ := List.exists_cons_of_ne_nil h
  have hne : (b :: bytes).flatMap (fun b ↦ hexPadded 2 b.toNat) ≠ [] :=
    List.append_ne_nil_of_left_ne_nil (hexPadded_ne_nil 2 b.toNat) _
  refine ⟨_, rfl, hne, fun c hc ↦ ?_⟩
  obtain ⟨b', -, hc⟩ := List.mem_flatMap.1 hc
  exact isHexDigit_of_mem_hexPadded hc

/-- A hash consists of hexadecimal digits. -/
theorem exists_digits_hash {t : Token} {hash : Text} (h : t.hash? = some hash) :
    ∃ digits, hash = '0' :: 'x' :: digits ∧ digits ≠ [] ∧ ∀ c ∈ digits, isHexDigit c = true := by
  have hdigest : ∀ s : Signature, s.digest ≠ [] := by
    intro s
    simp [Signature.digest, keccak256, Keccak.bytesOfLane, List.range_succ_eq_map]
  unfold Token.hash? at h
  split at h
  · obtain ⟨s, -, rfl⟩ := Option.map_eq_some_iff.1 h
    refine exists_digits_hexLiteral ?_
    simpa using hdigest s
  · obtain ⟨s, -, rfl⟩ := Option.map_eq_some_iff.1 h
    exact exists_digits_hexLiteral (hdigest s)
  · cases h

/-- **A hash is spelled as one number**, with hexadecimal digits. -/
theorem exists_spelling_hash {t : Token} {hash : Text} (h : t.hash? = some hash) :
    ∃ digits, hash = '0' :: 'x' :: digits ∧ Spelling (.token .number hash) hash [] := by
  obtain ⟨digits, rfl, hne, hdigits⟩ := exists_digits_hash h
  exact ⟨digits, rfl, .hexNumber hne hdigits (by simp)⟩

theorem reads_hash {t : Token} {hash : Text} (h : t.hash? = some hash) :
    Reads hash [(.number, hash)] := by
  obtain ⟨-, -, hspell⟩ := exists_spelling_hash h
  exact hspell.reads

/-! ### Functions -/

/-- A token inside of a function: it does not begin another function and is one of plain Yul, and a
name has a dot in it or is one of `names`. -/
def InFunction (names : List Text) (x : TokenKind × Text) : Prop :=
  (x.1 ≠ .functionWord ∧ x.1.isPlain = true) ∧ (x.1 = .identifier → '.' ∈ x.2 ∨ x.2 ∈ names)

instance (names : List Text) : DecidablePred (InFunction names) := fun x ↦
  inferInstanceAs (Decidable ((x.1 ≠ .functionWord ∧ x.1.isPlain = true) ∧
    (x.1 = .identifier → '.' ∈ x.2 ∨ x.2 ∈ names)))

/-- The text defines the function `name` and no other function. Other names in it have a dot or are
among `names`. -/
def IsFunction (names : List Text) (name f : Text) : Prop :=
  ∃ ws, Lexes f ((.functionWord, "function".toList) :: (.identifier, name) :: ws) ∧
    ∀ x ∈ ws, InFunction names x

/-- A text without comments whose last character is none of a word, so that every other text may
stand behind it. -/
def EndsFirmly (u : Text) : Bool :=
  !u.contains '/' && u.getLast?.all fun c ↦ !isIdentifierPart c

/-- A fixed text with the readings `us`, which may stand in front of every other text. -/
def IsFront (u : Text) (us : List (TokenKind × Text)) : Bool :=
  EndsFirmly u && (tokenize u).toOption.map (List.map Token.reading) = some (us ++ [endReading])

section

variable {name w u s : Text} {us vs : List (TokenKind × Text)}

/-- A text that ends firmly, in front of more. -/
theorem Lexes.front (hs : Lexes s vs) (hu : Lexes u us) (hfirm : EndsFirmly u = true) :
    Lexes (u ++ s) (us ++ vs) := by
  simp only [EndsFirmly, Bool.and_eq_true, Bool.not_eq_true', Option.all_eq_true] at hfirm
  obtain ⟨hcomment, hlast⟩ := hfirm
  exact hu.append (by simpa using hcomment) hs (.inr fun c hc ↦ by simpa using hlast c hc)

theorem IsFront.lexes (hu : IsFront u us = true) (hs : Lexes s vs) :
    Lexes (u ++ s) (us ++ vs) := by
  obtain ⟨hfirm, hread⟩ := Bool.and_eq_true_iff.1 hu
  cases hts : tokenize u with
  | error e => simp [hts, Except.toOption] at hread
  | ok ts =>
    obtain ⟨us', hus, hreadings⟩ := (tokenized_of_tokenizeFrom hts).exists_lexes
    have heq : us' = us := by simpa [hts, Except.toOption, hreadings] using hread
    exact heq ▸ hs.front hus hfirm

end

/-! ### The functions as functions of Yul -/

/-- The function that reads up to 32 bytes of memory as a number. -/
def sliceDefinition : Definition :=
  ⟨sliceName, ["position".toList, "length".toList], "result".toList,
    .call Builtin.shr.name
      [.call Builtin.sub.name
        [.number 256, .call Builtin.mul.name [.name "length".toList, .number 8]],
        .call Builtin.mload.name [.name "position".toList]]⟩

/-- The function for the place of the field `name`, `offset` bytes behind a start. -/
def positionDefinition (name : Text) (offset : Nat) : Definition :=
  ⟨name ++ ".position".toList, ["_pos".toList], "_offset".toList,
    .call Builtin.add.name [.name "_pos".toList, .number offset]⟩

/-- The function for the size of the field or the struct `name`. -/
def sizeDefinition (name : Text) (size : Nat) : Definition :=
  ⟨name ++ ".size".toList, [], "_size".toList, .number size⟩

/-- The function for the value of the field `name` in memory. -/
def valueDefinition (name : Text) (size : Nat) : Definition :=
  ⟨name, ["_pos".toList], "_value".toList,
    .call sliceName [.call (name ++ ".position".toList) [.name "_pos".toList], .number size]⟩

/-- The functions of a field that stands `offset` bytes behind the start of `struct`. -/
def Field.definitions (struct : Text) (offset : Nat) (field : Field) : List Definition :=
  let name := struct ++ '.' :: field.name
  [positionDefinition name offset, sizeDefinition name field.size, valueDefinition name field.size]

namespace Struct

/-- The functions of the fields from `offset` on, and then the function of the total size. -/
def definitionsFrom (struct : Text) (offset : Nat) : List Field → List Definition
  | [] => [sizeDefinition struct offset]
  | field :: rest =>
    field.definitions struct offset ++ definitionsFrom struct (offset + field.size) rest

/-- The functions of a struct. -/
def definitions (s : Struct) : List Definition :=
  definitionsFrom s.name 0 s.fields

end Struct

/-! ### The fixed texts in the functions -/

/-- A text that is the same in the functions of all structs. -/
inductive FixedText
  | numberEnd
  | argumentEnd
  | sizeHead
  | positionHead
  | valueHead
  | place

namespace FixedText

/-- What is written. -/
def string : FixedText → String
  | numberEnd => " \x7d"
  | argumentEnd => ") \x7d"
  | sizeHead => "() -> _size \x7b _size := "
  | positionHead => "(_pos) -> _offset \x7b _offset := add(_pos, "
  | valueHead => "(_pos) -> _value \x7b _value := mslice("
  | place => "(_pos), "

def text (x : FixedText) : Text :=
  x.string.toList

/-- What is read. -/
def readings : FixedText → List (TokenKind × Text)
  | numberEnd => [symbolReading .closeBrace]
  | argumentEnd => [symbolReading .closeParen, symbolReading .closeBrace]
  | sizeHead => headReadings [] "_size".toList
  | positionHead => headReadings ["_pos".toList] "_offset".toList ++
      [(.identifier, Builtin.add.name), symbolReading .openParen, (.identifier, "_pos".toList),
        symbolReading .comma]
  | valueHead => headReadings ["_pos".toList] "_value".toList ++
      [(.identifier, sliceName), symbolReading .openParen]
  | place => [symbolReading .openParen, (.identifier, "_pos".toList), symbolReading .closeParen,
      symbolReading .comma]

theorem isFront (x : FixedText) : IsFront x.text x.readings = true := by
  cases x <;> decide +kernel

/-- A fixed text may stand behind every other text. -/
theorem soft_append (x : FixedText) (s : Text) : Soft (x.text ++ s) := by
  have hsoft : Soft x.text := by cases x <;> exact soft_cons_iff.2 (by decide)
  exact hsoft.append (by cases x <;> decide) s

end FixedText

section

variable {name s : Text} {vs : List (TokenKind × Text)}

/-- A fixed text in front of more. -/
theorem Lexes.fixed (hs : Lexes s vs) (x : FixedText) : Lexes (x.text ++ s) (x.readings ++ vs) :=
  IsFront.lexes x.isFront hs

/-- A number in front of a fixed text at the end. -/
theorem FixedText.lexes_number (x : FixedText) (n : Nat) :
    Lexes (decimal n ++ x.text) ((.number, decimal n) :: x.readings) := by
  have h := reads_decimal n (x.soft_append []) (Lexes.nil.fixed x)
  rwa [List.append_nil, List.append_nil] at h

/-- A name and a fixed text in front of more. -/
theorem Lexes.named (hs : Lexes s vs) (x : FixedText) (hname : IsName name) :
    Lexes (name ++ (x.text ++ s)) ((.identifier, name) :: (x.readings ++ vs)) :=
  hname.reads (x.soft_append s) (hs.fixed x)

/-- A function whose rest begins with a fixed text. -/
theorem Lexes.function (hs : Lexes s vs) (x : FixedText) (hname : IsName name) :
    Lexes ("function ".toList ++ (name ++ (x.text ++ s)))
      ((.functionWord, "function".toList) :: (.identifier, name) :: (x.readings ++ vs)) := by
  have hword : Spelling (.token .functionWord "function".toList) "function".toList [' '] :=
    @Spelling.word 'f' "unction".toList [' '] (by decide) (by decide) (by decide) (by decide)
      (by decide)
  have hspaced := Lexes.cons (.layout (c := ' ') (by decide)) (hs.named x hname)
  exact Lexes.cons (hword.of_head? (s := ' ' :: (name ++ (x.text ++ s))) rfl) hspaced

/-! ### Functions of structs -/

theorem lexes_sizeDefinition (hname : IsName name) (n : Nat) :
    Lexes ("function ".toList ++ name ++ ".size() -> _size \x7b _size := ".toList ++ decimal n ++
      " \x7d".toList) (sizeDefinition name n).readings := by
  have hsize : IsName (name ++ '.' :: "size".toList) := hname.dot (by decide)
  have h := (FixedText.numberEnd.lexes_number n).function .sizeHead hsize
  simpa [sizeDefinition, Definition.readings, Expression.readings, FixedText.text,
    FixedText.string, FixedText.readings] using h

/-- **The functions of a field** are read as their definitions. -/
theorem Field.lexes_accessors {struct : Text} {offset : Nat} {field : Field}
    (hstruct : IsName struct) (hfield : IsName field.name) :
    List.Forall₂ Lexes (field.accessors struct offset)
      ((field.definitions struct offset).map Definition.readings) := by
  have hname : IsName (struct ++ '.' :: field.name) := hstruct.dot hfield.isIdentifierPart
  have hposition : IsName (struct ++ '.' :: field.name ++ '.' :: "position".toList) :=
    hname.dot (by decide)
  have hargument (n : Nat) := FixedText.argumentEnd.lexes_number n
  -- each function is put together from its end: a number, and names with fixed texts behind them
  refine .cons ?_ (.cons (lexes_sizeDefinition hname field.size) (.cons ?_ .nil))
  · have h := (hargument offset).function .positionHead hposition
    simpa [positionDefinition, Definition.readings, Expression.readings, argumentReadings,
      FixedText.text, FixedText.string, FixedText.readings] using h
  · have h := ((hargument field.size).named .place hposition).function .valueHead hname
    simpa [valueDefinition, Definition.readings, Expression.readings, argumentReadings,
      FixedText.text, FixedText.string, FixedText.readings] using h

/-- A struct whose own name and whose fields are identifiers. -/
def Struct.HasNames (s : Struct) : Prop :=
  IsName s.name ∧ ∀ field ∈ s.fields, IsName field.name

/-- **The functions of a struct** are read as their definitions. -/
theorem Struct.lexes_accessors {s : Struct} (hs : s.HasNames) :
    List.Forall₂ Lexes s.accessors (s.definitions.map Definition.readings) := by
  obtain ⟨hname, hfields⟩ := hs
  unfold accessors definitions
  generalize s.fields = fields, 0 = offset at hfields
  induction fields generalizing offset with
  | nil => exact .cons (lexes_sizeDefinition hname offset) .nil
  | cons field fields ih =>
    rw [definitionsFrom, List.map_append]
    exact List.rel_append (Field.lexes_accessors hname (hfields field (by simp)))
      (ih _ fun field' hmem ↦ hfields field' (by simp [hmem]))

end

/-! ### The names in the functions of structs -/

/-- The names without a dot that the functions of structs use. -/
def accessorWords : List Text :=
  ["_pos", "_offset", "_size", "_value", "add", "mslice"].map String.toList

/-- The names of the functions of a field. -/
def Field.accessorNames (struct : Text) (field : Field) : List Text :=
  let name := struct ++ '.' :: field.name
  [name ++ ".position".toList, name ++ ".size".toList, name]

/-- The names of the functions of a struct. -/
def Struct.accessorNames (s : Struct) : List Text :=
  s.fields.flatMap (Field.accessorNames s.name) ++ [s.name ++ ".size".toList]

theorem Struct.map_name_definitions (s : Struct) :
    s.definitions.map Definition.name = s.accessorNames := by
  unfold definitions accessorNames
  generalize s.fields = fields, 0 = offset
  induction fields generalizing offset with
  | nil => rfl
  | cons field fields ih =>
    rw [definitionsFrom, List.map_append, ih, List.flatMap_cons, List.append_assoc]
    rfl

/-- Every name in the function besides its own has a dot or is among `names`. -/
def MentionsOnly (names : List Text) (d : Definition) : Prop :=
  ∀ x ∈ d.readings.drop 2, InFunction names x

theorem MentionsOnly.isFunction {names : List Text} {d : Definition} {f : Text}
    (h : MentionsOnly names d) (hlex : Lexes f d.readings) : IsFunction names d.name f :=
  ⟨_, hlex, h⟩

section

variable {name : Text} {n : Nat} {d : Definition}

/-- The parts of a function that the names in it come from. -/
theorem mentionsOnly_of {names : List Text}
    (hhead : ∀ x ∈ headReadings d.parameters d.result, InFunction names x)
    (hvalue : ∀ x ∈ d.value.readings, InFunction names x) : MentionsOnly names d := by
  intro x hx
  simp only [Definition.readings, List.drop_succ_cons, List.drop_zero, List.mem_append,
    List.mem_singleton] at hx
  rcases hx with hx | hx | rfl
  · exact hhead x hx
  · exact hvalue x hx
  · exact ⟨⟨nofun, rfl⟩, nofun⟩

theorem inFunction_number (names : List Text) (n : Nat) : InFunction names (.number, decimal n) :=
  ⟨⟨nofun, rfl⟩, nofun⟩

theorem mentionsOnly_sizeDefinition : MentionsOnly accessorWords (sizeDefinition name n) := by
  have hhead : ∀ x ∈ headReadings [] "_size".toList, InFunction accessorWords x := by decide
  refine mentionsOnly_of hhead ?_
  simpa [sizeDefinition, Expression.readings] using inFunction_number accessorWords n

theorem mentionsOnly_positionDefinition :
    MentionsOnly accessorWords (positionDefinition name n) := by
  have hhead : ∀ x ∈ headReadings ["_pos".toList] "_offset".toList, InFunction accessorWords x := by
    decide
  refine mentionsOnly_of hhead ?_
  simp only [positionDefinition, Expression.readings, argumentReadings, List.forall_mem_cons,
    List.cons_append, List.nil_append]
  exact ⟨by decide, by decide, by decide, by decide, inFunction_number _ n, by decide⟩

theorem mentionsOnly_valueDefinition : MentionsOnly accessorWords (valueDefinition name n) := by
  have hdot : InFunction accessorWords (.identifier, name ++ ".position".toList) :=
    ⟨⟨nofun, rfl⟩, fun _ ↦ .inl (List.mem_append_right _ (by decide))⟩
  have hhead : ∀ x ∈ headReadings ["_pos".toList] "_value".toList, InFunction accessorWords x := by
    decide
  refine mentionsOnly_of hhead ?_
  simp only [valueDefinition, Expression.readings, argumentReadings, List.forall_mem_cons,
    List.cons_append, List.nil_append]
  exact ⟨by decide, by decide, hdot, by decide, by decide, by decide, by decide,
    inFunction_number _ n, by decide⟩

theorem Struct.mentionsOnly_of_mem {s : Struct} (hd : d ∈ s.definitions) :
    MentionsOnly accessorWords d := by
  unfold definitions at hd
  generalize s.fields = fields, 0 = offset at hd
  induction fields generalizing offset with
  | nil =>
    obtain rfl := List.mem_singleton.1 hd
    exact mentionsOnly_sizeDefinition
  | cons field fields ih =>
    rcases List.mem_append.1 hd with hd | hd
    · simp only [Field.definitions, List.mem_cons, List.not_mem_nil, or_false] at hd
      rcases hd with rfl | rfl | rfl
      · exact mentionsOnly_positionDefinition
      · exact mentionsOnly_sizeDefinition
      · exact mentionsOnly_valueDefinition
    · exact ih _ hd

end

/-- **The functions of a struct** are those of its fields, and that of its size. -/
theorem Struct.isFunction_accessors {s : Struct} (hs : s.HasNames) :
    List.Forall₂ (IsFunction accessorWords) s.accessorNames s.accessors := by
  have hlex := List.forall₂_map_right_iff.1 (Struct.lexes_accessors hs)
  rw [← s.map_name_definitions, List.forall₂_map_left_iff]
  exact ((List.forall₂_and_left _ _).2 ⟨fun _ ↦ s.mentionsOnly_of_mem, hlex.flip⟩).imp
    fun _ _ h ↦ h.1.isFunction h.2

/-! ### Functions of a scope -/

/-- The tokens of the function that checks a condition, behind its name. -/
def requireReadings : List (TokenKind × Text) :=
  [symbolReading .openParen, (.identifier, "arg".toList), symbolReading .closeParen,
    symbolReading .openBrace, (.identifier, "if".toList), (.identifier, "lt".toList),
    symbolReading .openParen, (.identifier, "arg".toList), symbolReading .comma,
    (.number, "1".toList), symbolReading .closeParen, symbolReading .openBrace,
    (.identifier, "revert".toList), symbolReading .openParen, (.number, "0".toList),
    symbolReading .comma, (.number, "0".toList), symbolReading .closeParen,
    symbolReading .closeBrace, symbolReading .closeBrace]

theorem isFront_helpers : IsFront sliceHelper sliceDefinition.readings = true ∧
    IsFront requireHelper
      ((.functionWord, "function".toList) :: (.identifier, requireName) :: requireReadings) =
        true := by
  decide +kernel

/-- **The function that reads memory** is read as its definition. -/
theorem lexes_sliceHelper : Lexes sliceHelper sliceDefinition.readings := by
  simpa using IsFront.lexes isFront_helpers.1 .nil

theorem isFunction_sliceHelper :
    IsFunction (["position", "length", "result", "shr", "sub", "mul", "mload"].map String.toList)
      sliceName sliceHelper :=
  ⟨_, lexes_sliceHelper, by decide⟩

/-- The function that checks a condition. -/
theorem isFunction_requireHelper :
    IsFunction (["arg", "if", "lt", "revert"].map String.toList) requireName requireHelper := by
  refine ⟨requireReadings, ?_, by decide⟩
  simpa using IsFront.lexes isFront_helpers.2 .nil

theorem mem_scopeHelpers_cases {b : Bindings} {items : List Item} {f : Text}
    (hf : f ∈ scopeHelpers b items) :
    (∃ s ∈ b.structs, f ∈ s.accessors) ∨ f = sliceHelper ∨ f = requireHelper := by
  simp only [scopeHelpers, List.mem_append, List.mem_flatMap, List.mem_ite_nil_right,
    List.mem_singleton] at hf
  rcases hf with (hf | ⟨-, hf⟩) | ⟨-, hf⟩
  · exact .inl hf
  · exact .inr (.inl hf)
  · exact .inr (.inr hf)

/-- A function is read as tokens of plain Yul. -/
theorem IsFunction.isPlain {names : List Text} {name f : Text} (h : IsFunction names name f) :
    ∃ ws, Lexes f ws ∧ ∀ x ∈ ws, x.1.isPlain = true := by
  obtain ⟨ws, hlex, hws⟩ := h
  refine ⟨_, hlex, ?_⟩
  simp only [List.mem_cons, forall_eq_or_imp]
  exact ⟨rfl, rfl, fun x hx ↦ (hws x hx).1.2⟩

/-- **Every inserted function can be read**, as tokens of plain Yul. -/
theorem exists_lexes_of_mem_scopeHelpers {b : Bindings} {items : List Item}
    (hb : ∀ s ∈ b.structs, s.HasNames) {f : Text} (hf : f ∈ scopeHelpers b items) :
    ∃ ws, Lexes f ws ∧ ∀ x ∈ ws, x.1.isPlain = true := by
  rcases mem_scopeHelpers_cases hf with ⟨s, hs, hf⟩ | hf | hf
  · obtain ⟨name, -, hname⟩ := exists_mem_of_mem_right (Struct.isFunction_accessors (hb s hs)) hf
    exact hname.isPlain
  · exact (hf ▸ isFunction_sliceHelper).isPlain
  · exact (hf ▸ isFunction_requireHelper).isPlain

/-- **Inserted functions** read as they do alone, and so does what stands behind them. -/
theorem lexes_joinWith {functions : List Text} {wss : List (List (TokenKind × Text))} {s : Text}
    {vs : List (TokenKind × Text)} (h : List.Forall₂ Lexes functions wss) (hs : Lexes s vs) :
    Lexes (joinWith ['\n'] functions ++ '\n' :: s) (wss.flatten ++ vs) := by
  induction h with
  | nil => exact .cons (.layout (by decide)) hs
  | @cons f ws functions wss hf hrest ih =>
    rw [List.flatten_cons, List.append_assoc]
    cases hrest with
    | nil => exact hf.append_lineFeed hs
    | cons =>
      rw [joinWith_cons_cons, List.append_assoc, List.append_assoc]
      exact hf.append_lineFeed ih

end YulPlus
