import YulPlus.Proofs.Lowering.Generated

/-!
# What the functions of structs compute

What a call of an inserted function returns, in a program that has the function: that is said of the
functions of Yul that the inserted texts are read as.

The fields of a struct stand one behind the other, and field `k` begins at `Struct.offset k`
(`Struct.lt_size_iff`). In every program that has the functions of the struct and `mslice`, under
names that are distinct, the functions give this layout (`Struct.laysOut`): what is loaded at the
place of a field is shifted until only the bytes of the field remain. -/

namespace YulPlus

open Text Yul

/-! ### Sizes and places -/

/-- The number of bytes of some fields. -/
def totalSize (fields : List Field) : Nat :=
  (fields.map Field.size).sum

namespace Struct

/-- The number of bytes of a struct. -/
def size (s : Struct) : Nat :=
  totalSize s.fields

/-- The number of bytes in front of the field with number `k`. -/
def offset (s : Struct) (k : Nat) : Nat :=
  totalSize (s.fields.take k)

end Struct

/-! ### What the functions compute -/

section

variable {program : List Definition} {m : Memory} {s : Struct} {name : Text} {a l p w : Word}
  {n k offset : Nat}

/-- **The function that reads memory** shifts out what is no part of the slice. -/
theorem returns_slice_iff (hnames : (program.map Definition.name).Nodup)
    (hslice : sliceDefinition ∈ program) : Returns program m sliceName [a, l] w ↔
      w = m.load a >>> (BitVec.ofNat 256 256 - l * BitVec.ofNat 256 8 : Word).toNat := by
  have hposition : (sliceDefinition.start [a, l]).lookup "position".toList = some a := rfl
  have hlength : (sliceDefinition.start [a, l]).lookup "length".toList = some l := rfl
  show Returns program m sliceDefinition.name [a, l] w ↔ _
  rw [Definition.returns_iff hnames hslice, and_iff_right (by rfl)]
  generalize sliceDefinition.start [a, l] = values at hposition hlength
  simp only [sliceDefinition, evaluates_builtin_iff, exists_evaluatesAll_cons_iff,
    exists_evaluatesAll_nil_iff, evaluates_name_iff, hposition, hlength,
    evaluates_number_iff_of_lt (show 256 < 2 ^ 256 by decide),
    evaluates_number_iff_of_lt (show 8 < 2 ^ 256 by decide)]
  simp [Builtin.value?, eq_comm]

/-- A slice of up to 32 bytes is the number that they spell. -/
theorem returns_slice_bytes_iff (hnames : (program.map Definition.name).Nodup)
    (hslice : sliceDefinition ∈ program) (hl : l.toNat ≤ 32) :
    Returns program m sliceName [a, l] w ↔ w.toNat = bigEndian (m.bytes a.toNat l.toNat) := by
  rw [returns_slice_iff hnames hslice, Word.toNat_sub_mul hl, ← BitVec.toNat_inj,
    m.toNat_load_shift a hl]

/-- The function of a size. -/
theorem returns_size_iff (hnames : (program.map Definition.name).Nodup)
    (hsize : sizeDefinition name n ∈ program) :
    Returns program m (name ++ ".size".toList) [] w ↔ w.toNat = n := by
  show Returns program m (sizeDefinition name n).name [] w ↔ _
  rw [Definition.returns_iff hnames hsize, and_iff_right (by rfl), sizeDefinition,
    evaluates_number_iff]

/-- The function for the place of a field adds its offset. -/
theorem returns_position_iff (hnames : (program.map Definition.name).Nodup)
    (hposition : positionDefinition name offset ∈ program) :
    Returns program m (name ++ ".position".toList) [p] w ↔
      ∃ v : Word, v.toNat = offset ∧ w = p + v := by
  have hstart : ((positionDefinition name offset).start [p]).lookup "_pos".toList = some p := rfl
  show Returns program m (positionDefinition name offset).name [p] w ↔ _
  rw [Definition.returns_iff hnames hposition, and_iff_right (by rfl)]
  generalize (positionDefinition name offset).start [p] = values at hstart
  simp only [positionDefinition, evaluates_builtin_iff, exists_evaluatesAll_cons_iff,
    exists_evaluatesAll_nil_iff, evaluates_name_iff, evaluates_number_iff, hstart]
  simp [Builtin.value?, eq_comm]

/-- The function for the value of a field reads the slice at the place of the field. -/
theorem returns_value_iff (hnames : (program.map Definition.name).Nodup) (hdot : '.' ∈ name)
    (hvalue : valueDefinition name n ∈ program) :
    Returns program m name [p] w ↔ ∃ a, Returns program m (name ++ ".position".toList) [p] a ∧
      ∃ l : Word, l.toNat = n ∧ Returns program m sliceName [a, l] w := by
  have hstart : ((valueDefinition name n).start [p]).lookup "_pos".toList = some p := rfl
  have hslice : Builtin.ofName? sliceName = none := by decide +kernel
  have hposition : Builtin.ofName? (name ++ ".position".toList) = none :=
    Builtin.ofName?_eq_none (List.mem_append_left _ hdot)
  show Returns program m (valueDefinition name n).name [p] w ↔ _
  rw [Definition.returns_iff hnames hvalue, and_iff_right (by rfl)]
  generalize (valueDefinition name n).start [p] = values at hstart
  simp only [valueDefinition, evaluates_call_iff hslice, evaluates_call_iff hposition,
    exists_evaluatesAll_cons_iff, exists_evaluatesAll_nil_iff, evaluates_name_iff,
    evaluates_number_iff, hstart]
  simp

/-- **The value of a field** is the number that its bytes spell. -/
theorem returns_value_bytes_iff (hnames : (program.map Definition.name).Nodup)
    (hslice : sliceDefinition ∈ program) (hdot : '.' ∈ name)
    (hposition : positionDefinition name offset ∈ program)
    (hvalue : valueDefinition name n ∈ program) (hn : n ≤ 32)
    (hp : p.toNat + offset < 2 ^ 256) :
    Returns program m name [p] w ↔ w.toNat = bigEndian (m.bytes (p.toNat + offset) n) := by
  have hfits : (BitVec.ofNat 256 offset).toNat = offset :=
    (BitVec.toNat_ofNat _ _).trans (Nat.mod_eq_of_lt (by omega))
  have hplace : ∀ v : Word, v.toNat = offset → (p + v).toNat = p.toNat + offset := by
    intro v hv
    rw [BitVec.toNat_add, hv, Nat.mod_eq_of_lt hp]
  have hsize : (BitVec.ofNat 256 n).toNat = n :=
    (BitVec.toNat_ofNat _ _).trans (Nat.mod_eq_of_lt (by omega))
  rw [returns_value_iff hnames hdot hvalue]
  simp only [returns_position_iff hnames hposition]
  constructor
  · rintro ⟨_, ⟨v, hv, rfl⟩, l, rfl, h⟩
    rwa [returns_slice_bytes_iff hnames hslice hn, hplace v hv] at h
  · intro h
    refine ⟨_, ⟨_, hfits, rfl⟩, _, hsize, ?_⟩
    rwa [returns_slice_bytes_iff hnames hslice (by omega), hplace _ hfits, hsize]

/-! ### The layout of a struct -/

theorem totalSize_cons (field : Field) (fields : List Field) :
    totalSize (field :: fields) = field.size + totalSize fields := by
  simp [totalSize]

theorem Struct.offset_succ {field : Field} (hk : s.fields[k]? = some field) :
    s.offset (k + 1) = s.offset k + field.size := by
  simp [offset, totalSize, List.take_add_one, hk]

theorem Struct.offset_length (s : Struct) : s.offset s.fields.length = s.size := by
  rw [offset, List.take_length, size]

theorem Struct.offset_mono (s : Struct) : Monotone s.offset := by
  refine monotone_nat_of_le_succ fun k ↦ ?_
  cases hk : s.fields[k]? with
  | none => simp [offset, List.take_add_one, hk]
  | some field =>
    rw [offset_succ hk]
    exact Nat.le_add_right _ _

/-- **The fields tile the struct**: each of its bytes lies in exactly one field. -/
theorem Struct.lt_size_iff {i : Nat} : i < s.size ↔
    ∃! k, k < s.fields.length ∧ s.offset k ≤ i ∧ i < s.offset (k + 1) := by
  constructor
  · intro hi
    have hends : ∃ k, i < s.offset k := ⟨s.fields.length, s.offset_length ▸ hi⟩
    obtain ⟨k, hk⟩ : ∃ k, Nat.find hends = k + 1 := by
      refine Nat.exists_eq_add_one_of_ne_zero fun hzero ↦ ?_
      have hlt := Nat.find_spec hends
      rw [hzero] at hlt
      exact Nat.not_lt_zero i hlt
    have hle : s.offset k ≤ i := not_lt.1 (Nat.find_min hends (by omega))
    have hlt : i < s.offset (k + 1) := hk ▸ Nat.find_spec hends
    have hlength : k + 1 ≤ s.fields.length := hk ▸ Nat.find_min' hends (s.offset_length ▸ hi)
    refine ⟨k, ⟨hlength, hle, hlt⟩, ?_⟩
    -- of two fields one ends before the other begins
    rintro k' ⟨-, hle', hlt'⟩
    rcases lt_trichotomy k' k with h | h | h
    · exact absurd (hlt'.trans_le ((s.offset_mono h).trans hle)) (lt_irrefl i)
    · exact h
    · exact absurd (hlt.trans_le ((s.offset_mono h).trans hle')) (lt_irrefl i)
  · rintro ⟨k, ⟨hk, -, hi⟩, -⟩
    exact hi.trans_le ((s.offset_mono hk).trans_eq s.offset_length)

/-- In the program the functions of the struct give its layout: the total size, the sizes and the
places of the fields, and the numbers that stand there in memory. -/
structure Struct.LaysOut (s : Struct) (program : List Definition) : Prop where
  size : ∀ (m : Memory) (w : Word),
    Returns program m (s.name ++ ".size".toList) [] w ↔ w.toNat = s.size
  fieldSize : ∀ (k : Nat) (field : Field), s.fields[k]? = some field → ∀ (m : Memory) (w : Word),
    Returns program m (s.name ++ '.' :: field.name ++ ".size".toList) [] w ↔
      w.toNat = field.size
  position : ∀ (k : Nat) (field : Field), s.fields[k]? = some field →
    ∀ (m : Memory) (p w : Word),
      Returns program m (s.name ++ '.' :: field.name ++ ".position".toList) [p] w ↔
        ∃ v : Word, v.toNat = s.offset k ∧ w = p + v
  value : ∀ (k : Nat) (field : Field), s.fields[k]? = some field → ∀ (m : Memory) (p : Word),
    p.toNat + s.size + 32 < 2 ^ 256 → ∀ w : Word,
      Returns program m (s.name ++ '.' :: field.name) [p] w ↔
        w.toNat = bigEndian (m.bytes (p.toNat + s.offset k) field.size)

theorem Struct.definitionsFrom_subset (struct : Text) (offset : Nat) {fields : List Field}
    {field : Field} (hk : fields[k]? = some field) :
    field.definitions struct (offset + totalSize (fields.take k)) ⊆
      definitionsFrom struct offset fields := by
  induction fields generalizing k offset with
  | nil => cases hk
  | cons field' fields ih =>
    rw [definitionsFrom]
    cases k with
    | zero =>
      obtain rfl := Option.some.inj hk
      exact List.subset_append_left _ _
    | succ k =>
      rw [List.take_succ_cons, totalSize_cons, ← Nat.add_assoc]
      exact List.Subset.trans (ih _ hk) (List.subset_append_right _ _)

theorem Struct.sizeDefinition_mem_from (struct : Text) (offset : Nat) (fields : List Field) :
    sizeDefinition struct (offset + totalSize fields) ∈ definitionsFrom struct offset fields := by
  induction fields generalizing offset with
  | nil => exact List.mem_singleton.2 rfl
  | cons field fields ih =>
    rw [definitionsFrom, totalSize_cons, ← Nat.add_assoc]
    exact List.mem_append_right _ (ih _)

/-- **The functions of a struct give its layout** in every program that has them and the function
that reads memory, under names that are distinct. -/
theorem Struct.laysOut (hsizes : ∀ field ∈ s.fields, field.size ≤ 32)
    (hnames : (program.map Definition.name).Nodup) (hslice : sliceDefinition ∈ program)
    (hs : s.definitions ⊆ program) : s.LaysOut program := by
  have hfield : ∀ {k : Nat} {field : Field}, s.fields[k]? = some field →
      field.definitions s.name (s.offset k) ⊆ program := by
    intro k field hk
    have h := definitionsFrom_subset s.name 0 hk
    rw [Nat.zero_add] at h
    exact List.Subset.trans h hs
  have hsize : sizeDefinition s.name s.size ∈ program := by
    have h := sizeDefinition_mem_from s.name 0 s.fields
    rw [Nat.zero_add] at h
    exact hs h
  refine ⟨fun m w ↦ returns_size_iff hnames hsize, fun k field hk m w ↦ ?_,
    fun k field hk m p w ↦ ?_, fun k field hk m p hp w ↦ ?_⟩
  · exact returns_size_iff hnames (hfield hk (by simp [Field.definitions]))
  · exact returns_position_iff hnames (hfield hk (by simp [Field.definitions]))
  · have hlt : k < s.fields.length := (List.getElem?_eq_some_iff.1 hk).1
    have hle : s.offset k ≤ s.size := (s.offset_mono hlt.le).trans_eq s.offset_length
    exact returns_value_bytes_iff hnames hslice (by simp)
      (hfield hk (by simp [Field.definitions])) (hfield hk (by simp [Field.definitions]))
      (hsizes field (List.mem_of_getElem? hk)) (by omega)

end

end YulPlus
