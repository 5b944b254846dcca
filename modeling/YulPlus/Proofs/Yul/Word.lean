import Mathlib.Data.Nat.Digits.Lemmas

/-!
# Words and memory

The machine that runs Yul computes with words of 256 bits, modulo `2 ^ 256`, and its memory consists
of bytes. A word is loaded from 32 bytes, the most significant first, so the first bytes of it are
what is left when it is shifted to the right (`Memory.toNat_load_shift`). -/

namespace YulPlus

/-- A word of the machine. -/
abbrev Word : Type :=
  BitVec 256

/-- The memory: the byte at each address. -/
abbrev Memory : Type :=
  Nat → UInt8

/-- The number that bytes spell, the most significant first. -/
def bigEndian (bytes : List UInt8) : Nat :=
  Nat.ofDigits 256 (bytes.reverse.map UInt8.toNat)

namespace Memory

/-- The `n` bytes from the address `a` on. -/
def bytes (m : Memory) (a n : Nat) : List UInt8 :=
  (List.range' a n).map m

/-- The word at an address. -/
def load (m : Memory) (a : Word) : Word :=
  BitVec.ofNat 256 (bigEndian (m.bytes a.toNat 32))

end Memory

section

variable {m : Memory} {a n : Nat}

/-! ### Big-endian numbers -/

theorem bigEndian_append (bytes bytes' : List UInt8) :
    bigEndian (bytes ++ bytes') = bigEndian bytes * 256 ^ bytes'.length + bigEndian bytes' := by
  rw [bigEndian, List.reverse_append, List.map_append, Nat.ofDigits_append, List.length_map,
    List.length_reverse, ← bigEndian, ← bigEndian, Nat.add_comm, Nat.mul_comm]

theorem bigEndian_lt (bytes : List UInt8) : bigEndian bytes < 256 ^ bytes.length := by
  have h : ∀ d ∈ bytes.reverse.map UInt8.toNat, d < 256 := by
    intro d hd
    obtain ⟨b, -, rfl⟩ := List.mem_map.1 hd
    exact b.toNat_lt
  simpa [bigEndian] using Nat.ofDigits_lt_base_pow_length (by decide) h

/-- The bytes in front of the last ones are what a division leaves. -/
theorem bigEndian_append_div (bytes bytes' : List UInt8) :
    bigEndian (bytes ++ bytes') / 256 ^ bytes'.length = bigEndian bytes := by
  rw [bigEndian_append, Nat.mul_comm, Nat.mul_add_div (Nat.pow_pos (by decide)),
    Nat.div_eq_of_lt (bigEndian_lt bytes'), Nat.add_zero]

/-! ### Memory -/

@[simp]
theorem Memory.length_bytes : (m.bytes a n).length = n := by
  simp [bytes]

theorem Memory.bytes_add (k : Nat) : m.bytes a (n + k) = m.bytes a n ++ m.bytes (a + n) k := by
  rw [bytes, bytes, bytes, ← List.map_append, List.range'_append_1]

theorem Memory.toNat_load (m : Memory) (a : Word) :
    (m.load a).toNat = bigEndian (m.bytes a.toNat 32) := by
  have hlt : bigEndian (m.bytes a.toNat 32) < 2 ^ 256 := by
    simpa using bigEndian_lt (m.bytes a.toNat 32)
  rw [load, BitVec.toNat_ofNat, Nat.mod_eq_of_lt hlt]

/-- **The first bytes of a word** remain when the others are shifted out. -/
theorem Memory.toNat_load_shift (m : Memory) (a : Word) (hn : n ≤ 32) :
    (m.load a >>> (256 - n * 8)).toNat = bigEndian (m.bytes a.toNat n) := by
  have hbytes : m.bytes a.toNat 32 = m.bytes a.toNat n ++ m.bytes (a.toNat + n) (32 - n) := by
    rw [← bytes_add, Nat.add_sub_cancel' hn]
  have hpow : 2 ^ (256 - n * 8) = 256 ^ (m.bytes (a.toNat + n) (32 - n)).length := by
    rw [length_bytes, show 256 = 2 ^ 8 by rfl, ← Nat.pow_mul]
    congr 1
    omega
  rw [BitVec.toNat_ushiftRight, toNat_load, Nat.shiftRight_eq_div_pow, hpow, hbytes,
    bigEndian_append_div]

/-- The number of bits that are shifted out is computed without a wrap-around. -/
theorem Word.toNat_sub_mul {l : Word} (hl : l.toNat ≤ 32) :
    (BitVec.ofNat 256 256 - l * BitVec.ofNat 256 8 : Word).toNat = 256 - l.toNat * 8 := by
  have hmul : (l * BitVec.ofNat 256 8 : Word).toNat = l.toNat * 8 := by
    rw [BitVec.toNat_mul, BitVec.toNat_ofNat]
    omega
  rw [BitVec.toNat_sub, hmul, BitVec.toNat_ofNat]
  omega

end

end YulPlus
