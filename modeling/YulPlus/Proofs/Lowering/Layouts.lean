import YulPlus.Proofs.Lowering.Accessors
import YulPlus.Proofs.Lowering.Introduced

/-!
# Structs in a lowered source

Every struct that a source declares is there in the lowered code as functions for its layout
(`lower_laysOut`): the sizes of its fields are the numbers written in the declaration, the functions
are inserted into the scope, and what they return is what the layout says.

That presumes that a name is the name of one function. The functions of a scope have distinct names
if the declarations do not collide (`nodup_scopeDefinitions`), and it is not asked of a source that
they do not. So there is a struct with two functions of one name, and a call of it may return
something else (`lower_laysOut_ambiguous`). -/

namespace YulPlus

open Text Yul

/-- The number `n` is written as `s`, in hexadecimal digits behind `0x` or in the decimal digits of
any script. -/
inductive IsNumeral : Text → Nat → Prop
  | hexadecimal {digits : Text} (hdigits : ∀ c ∈ digits, isHexDigit c = true) :
      IsNumeral ('0' :: 'x' :: digits) (Nat.ofDigits 16 (digits.reverse.map hexDigitValue))
  | decimal {digits : Text} (hdigits : ∀ c ∈ digits, Decimal.isDecimalDigit c = true) :
      IsNumeral digits (Nat.ofDigits 10 (digits.reverse.map fun c ↦ (digitValue? c).getD 0))

/-- Among the tokens is the field: its name, a colon, and a number between 1 and 32, which is its
size. -/
def Field.WrittenIn (field : Field) (tokens : List Token) : Prop :=
  ∃ name colon number : Token, [name, colon, number] <:+: tokens ∧ name.kind = .identifier ∧
    name.value = field.name ∧ colon.kind = .colon ∧ number.kind = .number ∧
    IsNumeral number.value field.size ∧ 1 ≤ field.size ∧ field.size ≤ 32

/-- Among the functions are those of the struct, one behind the other. -/
def Struct.InsertedIn (s : Struct) (helpers : List Text) : Prop :=
  ∃ functions, functions <:+: helpers ∧
    List.Forall₂ Lexes functions (s.definitions.map Definition.readings)

/-- The functions of the structs of a scope, and the function that reads memory. -/
def scopeDefinitions (parts : List Part) : List Definition :=
  ((declarationsOf parts).filterMap Declaration.struct?).flatMap Struct.definitions ++
    [sliceDefinition]

section

variable {source : Text} {parts : List Part} {inner ts u : List Token} {units : List (List Token)}
  {opening closing t : Token} {s : Struct} {field : Field} {o n base : Nat}

/-! ### Fields in the source -/

theorem numberOf_eq_ofDigits (value : Char → Nat) (s : Text) :
    numberOf base value s = Nat.ofDigits base (s.reverse.map value) := by
  induction s using List.reverseRecOn with
  | nil => rfl
  | append_singleton s c ih =>
    rw [numberOf_append_singleton, ih, List.reverse_append, List.reverse_singleton,
      List.singleton_append, List.map_cons, Nat.ofDigits_cons, Nat.mul_comm, Nat.add_comm]

/-- The decimal digits that are read as a number are all of the text. -/
theorem isNumeral_of_readNatural {text : Text} (h : Decimal.readNatural text = .ok n) :
    IsNumeral text n := by
  unfold Decimal.readNatural at h
  dsimp only at h
  split at h
  · cases h
  split at h
  · cases h
  · rename_i hall
    have hlength : text.length ≤ (text.takeWhile Decimal.isDecimalDigit).length := by
      simp at hall
      omega
    have heq : text.takeWhile Decimal.isDecimalDigit = text :=
      (List.takeWhile_prefix _).eq_of_length_le hlength
    rw [heq] at h
    obtain rfl := Except.ok.inj h
    rw [Decimal.numberOfDigits, numberOf_eq_ofDigits]
    exact .decimal (List.takeWhile_eq_self_iff.1 heq)

/-- The digits of a hexadecimal number. -/
theorem Spelling.isHexDigit {digits text r : Text}
    (h : Spelling (.token .number ('0' :: 'x' :: digits)) text r) :
    ∀ c ∈ digits, isHexDigit c = true := by
  generalize hl : Lexeme.token .number ('0' :: 'x' :: digits) = l at h
  cases h with
  | hexNumber _ hdigits =>
    obtain ⟨-, heq⟩ := Lexeme.token.inj hl
    obtain rfl := (List.cons.inj (List.cons.inj heq).2).2
    exact hdigits
  | number _ hdigits =>
    obtain ⟨-, rfl⟩ := Lexeme.token.inj hl
    exact absurd (hdigits 'x' (by simp)) (by decide)
  | symbol hk =>
    obtain ⟨rfl, -⟩ := Lexeme.token.inj hl
    cases hk
  | @word c tail _ hc hdigit =>
    obtain ⟨-, heq⟩ := Lexeme.token.inj hl
    obtain ⟨rfl, -⟩ := List.cons.inj heq
    exact absurd hdigit (by decide)
  | hash hframe =>
    obtain ⟨rfl, -⟩ := Lexeme.token.inj hl
    cases (TokenKind.frame?_of_ofFrame? hframe).2
  | _ => cases hl

/-- The size of a field is the number that its token spells. -/
theorem Token.StandsAfter.isNumeral (ht : t.StandsAfter source o) (hkind : t.kind = .number)
    (hsize : fieldSize? t.value = some n) : IsNumeral t.value n := by
  unfold fieldSize? at hsize
  split at hsize
  · rename_i digits hdigits
    obtain rfl := Option.some.inj hsize
    have htext : t.value = '0' :: 'x' :: digits := dropHead?_eq_some_iff.1 hdigits
    obtain ⟨r, hr⟩ := ht.spelling
    rw [hkind, htext] at hr
    rw [htext, hexNumber, numberOf_eq_ofDigits]
    exact .hexadecimal hr.isHexDigit
  · cases hread : Decimal.readNatural t.value with
    | error => simp [hread, Except.toOption] at hsize
    | ok size =>
      simp only [hread, Except.toOption, Option.some.injEq] at hsize
      exact isNumeral_of_readNatural (hsize ▸ hread)

/-- A unit of a list stands in the list as a whole. -/
theorem CommaList.infix_of_mem (h : CommaList units ts) (hu : u ∈ units) : u <:+: ts := by
  induction h with
  | single =>
    obtain rfl := List.mem_singleton.1 hu
    exact List.infix_rfl
  | cons _ _ ih =>
    rcases List.mem_cons.1 hu with rfl | hu
    · exact (List.prefix_append _ _).isInfix
    · exact (List.infix_cons (ih hu)).trans (List.suffix_append _ _).isInfix

/-- **The fields of a struct of a scope** are written there. -/
theorem IsBody.writtenIn (h : IsBody closing inner parts) (hinner : Placed source o inner)
    (hs : .struct s ∈ declarationsOf parts) : ∀ field ∈ s.fields, field.WrittenIn inner := by
  intro field hfield
  obtain ⟨front, ds, back, rfl, hspells⟩ := h.exists_append_of_mem hs
  cases hspells with
  | @struct keyword name paren unparen units fields ts _ _ _ hts hunits =>
    obtain ⟨unit, hunit, hfield⟩ := exists_mem_of_mem_right hunits hfield
    cases hfield with
    | @mk fieldName colon number size hname hcolon hnumber hsize hmin hmax =>
      have hinfix : [fieldName, colon, number] <:+: front ++
          (keyword :: name :: paren :: (ts ++ [unparen]) ++ back) :=
        (hts.infix_of_mem hunit).trans ⟨front ++ [keyword, name, paren], unparen :: back, by simp⟩
      have hmem : number ∈ front ++ (keyword :: name :: paren :: (ts ++ [unparen]) ++ back) :=
        hinfix.subset (by simp)
      obtain ⟨a, -, hstands, -⟩ := hinner.exists_standsAfter hmem
      exact ⟨_, _, _, hinfix, hname, rfl, hcolon, hnumber, hstands.isNumeral hnumber hsize, hmin,
        hmax⟩

/-! ### Functions in the lowered code -/

/-- The functions of a struct of a scope are inserted. -/
theorem insertedIn_of_mem (hs : .struct s ∈ declarationsOf parts) (hnames : s.HasNames) :
    s.InsertedIn (scopeHelpers (boundIn source parts) (parts.map Part.item)) := by
  obtain ⟨slice, require, heq, -, -⟩ := exists_scopeHelpers_eq source parts
  have hmem : s ∈ (boundIn source parts).structs := List.mem_filterMap.2 ⟨_, hs, rfl⟩
  obtain ⟨front, back, hstructs⟩ := List.append_of_mem hmem
  refine ⟨s.accessors, ?_, Struct.lexes_accessors hnames⟩
  rw [heq, hstructs, List.flatMap_append, List.flatMap_cons, List.append_assoc]
  exact ((List.prefix_append _ _).isInfix.trans (List.suffix_append _ _).isInfix).trans
    (List.prefix_append _ _).isInfix

/-- With a struct comes the function that reads memory, unless the scope defines it. -/
theorem exists_lexes_sliceDefinition (hs : .struct s ∈ declarationsOf parts)
    (hdefines : ¬ Defines parts sliceName) :
    ∃ f ∈ scopeHelpers (boundIn source parts) (parts.map Part.item),
      Lexes f sliceDefinition.readings := by
  obtain ⟨slice, require, heq, hslice, -⟩ := exists_scopeHelpers_eq source parts
  have hstructs : (boundIn source parts).structs ≠ [] :=
    fun hnil ↦ structs_boundIn_eq_nil_iff.1 hnil ⟨s, hs⟩
  exact ⟨sliceHelper, by simp [heq, hslice.2 ⟨.inl hstructs, hdefines⟩], lexes_sliceHelper⟩

/-- **The functions of a scope have distinct names** if its declarations do not collide. -/
theorem nodup_scopeDefinitions (hnodup : (introducedIn parts).Nodup) :
    ((scopeDefinitions parts).map Definition.name).Nodup := by
  have hnames : (scopeDefinitions parts).map Definition.name =
      ((declarationsOf parts).filterMap Declaration.struct?).flatMap Struct.accessorNames ++
        [sliceName] := by
    rw [scopeDefinitions, List.map_append, List.map_flatMap]
    simp only [Struct.map_name_definitions]
    rfl
  rw [hnames, List.nodup_append', and_iff_right (List.nodup_singleton _), List.disjoint_singleton]
  refine ⟨hnodup.sublist accessorNames_sublist, fun hmem ↦ ?_⟩
  obtain ⟨s, -, hn⟩ := List.mem_flatMap.1 hmem
  exact absurd (s.dot_mem_of_mem_accessorNames hn) (by decide)

/-- **The layout of structs.** Each field of a struct is written in the scope with its size, and
each byte of the struct lies in exactly one field. The functions of the struct are inserted into the
scope, with the function that reads memory unless the scope defines that. If the declarations of the
scope do not collide, the functions give the layout; and so they do in every program with distinct
names. -/
theorem lower_laysOut {tokens before after : List Token} {r : Lowered}
    (htokens : tokenize source = .ok tokens) (h : lower source = .ok r)
    (heq : tokens = before ++ opening :: (inner ++ closing :: after))
    (hscope : IsScope (Segment.usesObjects tokens) before opening inner closing after) :
    ∃ parts, IsBody closing inner parts ∧
      LowersSlice source r opening.start.offset closing.stop
        (scopeText source opening parts closing) ∧
      ∀ s, .struct s ∈ declarationsOf parts →
        (∀ field ∈ s.fields, field.WrittenIn inner) ∧
        (∀ i, i < s.size ↔
          ∃! k, k < s.fields.length ∧ s.offset k ≤ i ∧ i < s.offset (k + 1)) ∧
        s.InsertedIn (scopeHelpers (boundIn source parts) (parts.map Part.item)) ∧
        (¬ Defines parts sliceName →
          ∃ f ∈ scopeHelpers (boundIn source parts) (parts.map Part.item),
            Lexes f sliceDefinition.readings) ∧
        (¬ Collides (declarationsOf parts) → s.LaysOut (scopeDefinitions parts)) ∧
        ∀ program, s.definitions ⊆ program → sliceDefinition ∈ program →
          (program.map Definition.name).Nodup → s.LaysOut program := by
  obtain ⟨parts, o, hbody, hnodup, -, hinner, -⟩ := exists_parts_of_lower htokens h heq hscope
  refine ⟨parts, hbody, lowersSlice_scopeText htokens h ⟨inner, heq, hscope, hbody⟩,
    fun s hs ↦ ?_⟩
  have hwritten := hbody.writtenIn hinner hs
  have hmem : s ∈ (boundIn source parts).structs := List.mem_filterMap.2 ⟨_, hs, rfl⟩
  have hsizes : ∀ field ∈ s.fields, field.size ≤ 32 := by
    intro field hfield
    obtain ⟨_, _, _, -, -, -, -, -, -, -, hmax⟩ := hwritten field hfield
    exact hmax
  have hlaysOut : ∀ program, s.definitions ⊆ program → sliceDefinition ∈ program →
      (program.map Definition.name).Nodup → s.LaysOut program :=
    fun program hsub hslice hnames ↦ s.laysOut hsizes hnames hslice hsub
  refine ⟨hwritten, fun i ↦ s.lt_size_iff, insertedIn_of_mem hs (hbody.hasNames hinner s hmem),
    exists_lexes_sliceDefinition hs, fun hcollides ↦ ?_, hlaysOut⟩
  exact hlaysOut _ (fun d hd ↦ List.mem_append_left _ (List.mem_flatMap.2 ⟨s, hmem, hd⟩))
    (List.mem_append_right _ (List.mem_singleton.2 rfl))
    (nodup_scopeDefinitions ((nodup_introduced_iff hbody.nodup_fields hnodup).2 hcollides))

/-- A struct with a size in decimal digits and one in hexadecimal digits. -/
theorem lower_laysOut_hexadecimal :
    ∃ source tokens before opening inner closing after r parts s,
      source = "\x7b mstruct S (a: 4, b: 0x20) \x7d".toList ∧ tokenize source = .ok tokens ∧
      lower source = .ok r ∧ tokens = before ++ opening :: (inner ++ closing :: after) ∧
      IsScope (Segment.usesObjects tokens) before opening inner closing after ∧
      IsBody closing inner parts ∧ s = ⟨"S".toList, [⟨"a".toList, 4⟩, ⟨"b".toList, 32⟩]⟩ ∧
      .struct s ∈ declarationsOf parts ∧ ¬ Collides (declarationsOf parts) ∧
      LowersSlice source r opening.start.offset closing.stop
        (scopeText source opening parts closing) ∧
      (∀ field ∈ s.fields, field.WrittenIn inner) ∧
      s.InsertedIn (scopeHelpers (boundIn source parts) (parts.map Part.item)) ∧
      s.LaysOut (scopeDefinitions parts) := by
  let opening : Token := ⟨.openBrace, "\x7b".toList, ⟨1, 1, 0⟩, 1⟩
  let keyword : Token := ⟨.structWord, "mstruct".toList, ⟨1, 3, 2⟩, 9⟩
  let name : Token := ⟨.identifier, "S".toList, ⟨1, 11, 10⟩, 11⟩
  let paren : Token := ⟨.openParen, "(".toList, ⟨1, 13, 12⟩, 13⟩
  let field : Token := ⟨.identifier, "a".toList, ⟨1, 14, 13⟩, 14⟩
  let colon : Token := ⟨.colon, ":".toList, ⟨1, 15, 14⟩, 15⟩
  let size : Token := ⟨.number, "4".toList, ⟨1, 17, 16⟩, 17⟩
  let comma : Token := ⟨.comma, ",".toList, ⟨1, 18, 17⟩, 18⟩
  let field' : Token := ⟨.identifier, "b".toList, ⟨1, 20, 19⟩, 20⟩
  let colon' : Token := ⟨.colon, ":".toList, ⟨1, 21, 20⟩, 21⟩
  let size' : Token := ⟨.number, "0x20".toList, ⟨1, 23, 22⟩, 26⟩
  let unparen : Token := ⟨.closeParen, ")".toList, ⟨1, 27, 26⟩, 27⟩
  let closing : Token := ⟨.closeBrace, "\x7d".toList, ⟨1, 29, 28⟩, 29⟩
  let last : Token := ⟨.endOfText, [], ⟨1, 30, 29⟩, 29⟩
  let fields : List Token := [field, colon, size, comma, field', colon', size']
  let tail : List Token := name :: paren :: (fields ++ [unparen])
  let inner : List Token := keyword :: (tail ++ [])
  let s : Struct := ⟨"S".toList, [⟨"a".toList, 4⟩, ⟨"b".toList, 32⟩]⟩
  let parts : List Part := [.declared keyword tail (.struct s)]
  let source : Text := "\x7b mstruct S (a: 4, b: 0x20) \x7d".toList
  have htokens : tokenize source = .ok (opening :: (inner ++ [closing, last])) := by
    decide +kernel
  obtain ⟨r, hlower⟩ := exists_of_isOk (show (lower source).isOk by decide +kernel)
  have hscope : IsScope false [] opening inner closing [last] :=
    isScope_block rfl (by decide) rfl rfl
  have hfield : IsField [field, colon, size] ⟨field.value, 4⟩ :=
    .mk rfl rfl rfl (by decide) (by decide) (by decide)
  have hfield' : IsField [field', colon', size'] ⟨field'.value, 32⟩ :=
    .mk rfl rfl rfl (by decide) (by decide) (by decide)
  have hstruct : Declaration.Spells (.struct ⟨name.value, s.fields⟩) (keyword :: name :: paren ::
      ([field, colon, size] ++ comma :: [field', colon', size'] ++ [unparen])) :=
    .structPair rfl rfl rfl hfield rfl hfield' (by decide) rfl
  have hbody : IsBody closing inner parts := .declared hstruct trivial .nil
  have hs : Declaration.struct s ∈ declarationsOf parts := List.mem_singleton.2 rfl
  obtain ⟨parts', hbody', hslice, hall⟩ := lower_laysOut htokens hlower rfl hscope
  obtain rfl := hbody.unique hbody'
  obtain ⟨hwritten, -, hinserted, -, hlaysOut, -⟩ := hall s hs
  have hcollides : ¬ Collides (declarationsOf parts) :=
    (nodup_introduced_iff hbody.nodup_fields (by decide)).1 (by decide)
  exact ⟨source, _, _, _, _, _, _, r, parts, s, rfl, htokens, hlower, rfl, hscope, hbody, rfl, hs,
    hcollides, hslice, hwritten, hinserted, hlaysOut hcollides⟩

/-- **Two functions of one name.** The function for the place of `a` is called like that for the
value of the other field, and when `a` is read at that value other bytes are read. -/
theorem lower_laysOut_ambiguous :
    ∃ source tokens before opening inner closing after r parts s m w,
      source = "\x7b mstruct S (a: 4, a.position: 2) \x7d".toList ∧
      tokenize source = .ok tokens ∧ lower source = .ok r ∧
      tokens = before ++ opening :: (inner ++ closing :: after) ∧
      IsScope (Segment.usesObjects tokens) before opening inner closing after ∧
      IsBody closing inner parts ∧
      s = ⟨"S".toList, [⟨"a".toList, 4⟩, ⟨"a.position".toList, 2⟩]⟩ ∧
      .struct s ∈ declarationsOf parts ∧
      Returns (scopeDefinitions parts) m (s.name ++ '.' :: "a".toList) [0] w ∧
      w.toNat = 0x01010101 ∧ bigEndian (m.bytes (s.offset 0) 4) = 0 ∧
      ¬ s.LaysOut (scopeDefinitions parts) := by
  let opening : Token := ⟨.openBrace, "\x7b".toList, ⟨1, 1, 0⟩, 1⟩
  let keyword : Token := ⟨.structWord, "mstruct".toList, ⟨1, 3, 2⟩, 9⟩
  let name : Token := ⟨.identifier, "S".toList, ⟨1, 11, 10⟩, 11⟩
  let paren : Token := ⟨.openParen, "(".toList, ⟨1, 13, 12⟩, 13⟩
  let field : Token := ⟨.identifier, "a".toList, ⟨1, 14, 13⟩, 14⟩
  let colon : Token := ⟨.colon, ":".toList, ⟨1, 15, 14⟩, 15⟩
  let size : Token := ⟨.number, "4".toList, ⟨1, 17, 16⟩, 17⟩
  let comma : Token := ⟨.comma, ",".toList, ⟨1, 18, 17⟩, 18⟩
  let field' : Token := ⟨.identifier, "a.position".toList, ⟨1, 20, 19⟩, 29⟩
  let colon' : Token := ⟨.colon, ":".toList, ⟨1, 30, 29⟩, 30⟩
  let size' : Token := ⟨.number, "2".toList, ⟨1, 32, 31⟩, 32⟩
  let unparen : Token := ⟨.closeParen, ")".toList, ⟨1, 33, 32⟩, 33⟩
  let closing : Token := ⟨.closeBrace, "\x7d".toList, ⟨1, 35, 34⟩, 35⟩
  let last : Token := ⟨.endOfText, [], ⟨1, 36, 35⟩, 35⟩
  let fields : List Token := [field, colon, size, comma, field', colon', size']
  let tail : List Token := name :: paren :: (fields ++ [unparen])
  let inner : List Token := keyword :: (tail ++ [])
  let s : Struct := ⟨"S".toList, [⟨"a".toList, 4⟩, ⟨"a.position".toList, 2⟩]⟩
  let parts : List Part := [.declared keyword tail (.struct s)]
  let source : Text := "\x7b mstruct S (a: 4, a.position: 2) \x7d".toList
  have htokens : tokenize source = .ok (opening :: (inner ++ [closing, last])) := by
    decide +kernel
  obtain ⟨r, hlower⟩ := exists_of_isOk (show (lower source).isOk by decide +kernel)
  have hscope : IsScope false [] opening inner closing [last] :=
    isScope_block rfl (by decide) rfl rfl
  have hfield : IsField [field, colon, size] ⟨field.value, 4⟩ :=
    .mk rfl rfl rfl (by decide) (by decide) (by decide)
  have hfield' : IsField [field', colon', size'] ⟨field'.value, 2⟩ :=
    .mk rfl rfl rfl (by decide) (by decide) (by decide)
  have hstruct : Declaration.Spells (.struct ⟨name.value, s.fields⟩) (keyword :: name :: paren ::
      ([field, colon, size] ++ comma :: [field', colon', size'] ++ [unparen])) :=
    .structPair rfl rfl rfl hfield rfl hfield' (by decide) rfl
  have hbody : IsBody closing inner parts := .declared hstruct trivial .nil
  let first : Text := s.name ++ '.' :: "a".toList
  let second : Text := s.name ++ '.' :: "a.position".toList
  -- the functions without that for the place of the first field have distinct names
  let functions : List Definition :=
    [valueDefinition first 4, positionDefinition second 4, valueDefinition second 2,
      sliceDefinition]
  have hsub : functions ⊆ scopeDefinitions parts := by
    simp [functions, scopeDefinitions, parts, declarationsOf, Part.declaration?,
      Declaration.struct?, Struct.definitions, Struct.definitionsFrom, Field.definitions, s, first,
      second]
  have hnames : (functions.map Definition.name).Nodup := by decide
  let m : Memory := fun a ↦ if a < 4 then 0 else 1
  have hplace : Returns functions m second [0] 0x0101 :=
    (returns_value_bytes_iff hnames (by simp [functions]) (by simp [second])
      (show positionDefinition second 4 ∈ functions by simp [functions])
      (show valueDefinition second 2 ∈ functions by simp [functions]) (by decide)
      (by decide)).2 (by decide)
  have hvalue : Returns functions m first [0] 0x01010101 :=
    (returns_value_iff hnames (by simp [first]) (show valueDefinition first 4 ∈ functions by
      simp [functions])).2 ⟨0x0101, hplace, 4, rfl,
        (returns_slice_bytes_iff hnames (by simp [functions]) (by decide)).2 (by decide)⟩
  have hzero : bigEndian (m.bytes (s.offset 0) 4) = 0 := by decide
  refine ⟨source, _, _, _, _, _, _, r, parts, s, m, _, rfl, htokens, hlower, rfl, hscope, hbody,
    rfl, List.mem_singleton.2 rfl, hvalue.mono hsub, rfl, hzero, fun hlaysOut ↦ ?_⟩
  have h := (hlaysOut.value 0 ⟨"a".toList, 4⟩ rfl m 0 (by decide) _).1 (hvalue.mono hsub)
  exact absurd h (by decide)

end

end YulPlus
