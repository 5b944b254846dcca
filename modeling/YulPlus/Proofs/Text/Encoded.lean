import YulPlus.Text.Utf8

/-!
# Texts in files

A text is decoded from the bytes that it is encoded in (`decode_encode`), and one without carriage
returns is not changed when its line breaks become line feeds (`normalizeLines_eq_self`). So such a
text is read from a file as it was written. -/

namespace YulPlus

namespace Utf8

/-! ### Sequences of one to four bytes -/

section

variable {a b c d : UInt8} {rest : List UInt8} {at_ : Nat}

theorem not_lt_of_toNat (h : b.toNat ≤ a.toNat) : ¬ a < b :=
  UInt8.not_lt.mpr h

theorem decodeFrom_one (ha : a.toNat < 0x80) :
    decodeFrom at_ (a :: rest) = push (Char.ofNat a.toNat) (decodeFrom (at_ + 1) rest) := by
  have h₁ : a < 0x80 := ha
  rw [decodeFrom.eq_def]
  simp only [h₁, if_true]

theorem decodeFrom_two (ha : 0xc2 ≤ a.toNat) (ha' : a.toNat < 0xe0) (hb : isContinuation b) :
    decodeFrom at_ (a :: b :: rest) = push (join 32 a [b]) (decodeFrom (at_ + 2) rest) := by
  have h₁ : ¬ a < 0x80 := not_lt_of_toNat (Nat.le_trans (by decide) ha)
  have h₂ : ¬ a < 0xc2 := not_lt_of_toNat (Nat.le_trans (by decide) ha)
  have h₃ : a < 0xe0 := ha'
  rw [decodeFrom.eq_def]
  simp only [h₁, h₂, h₃, hb, if_true, if_false]

theorem decodeFrom_three (ha : 0xe0 ≤ a.toNat) (ha' : a.toNat < 0xf0) (hb : isSecondOfThree a b)
    (hc : isContinuation c) :
    decodeFrom at_ (a :: b :: c :: rest) = push (join 16 a [b, c]) (decodeFrom (at_ + 3) rest) := by
  have h₁ : ¬ a < 0x80 := not_lt_of_toNat (Nat.le_trans (by decide) ha)
  have h₂ : ¬ a < 0xc2 := not_lt_of_toNat (Nat.le_trans (by decide) ha)
  have h₃ : ¬ a < 0xe0 := not_lt_of_toNat (Nat.le_trans (by decide) ha)
  have h₄ : a < 0xf0 := ha'
  rw [decodeFrom.eq_def]
  simp only [h₁, h₂, h₃, h₄, hb, hc, if_true, if_false]

theorem decodeFrom_four (ha : 0xf0 ≤ a.toNat) (ha' : a.toNat < 0xf5) (hb : isSecondOfFour a b)
    (hc : isContinuation c) (hd : isContinuation d) :
    decodeFrom at_ (a :: b :: c :: d :: rest) =
      push (join 8 a [b, c, d]) (decodeFrom (at_ + 4) rest) := by
  have h₁ : ¬ a < 0x80 := not_lt_of_toNat (Nat.le_trans (by decide) ha)
  have h₂ : ¬ a < 0xc2 := not_lt_of_toNat (Nat.le_trans (by decide) ha)
  have h₃ : ¬ a < 0xe0 := not_lt_of_toNat (Nat.le_trans (by decide) ha)
  have h₄ : ¬ a < 0xf0 := not_lt_of_toNat (Nat.le_trans (by decide) ha)
  have h₅ : a < 0xf5 := ha'
  rw [decodeFrom.eq_def]
  simp only [h₁, h₂, h₃, h₄, h₅, hb, hc, hd, if_true, if_false]

end

/-- The second byte of three excludes overlong forms and surrogates. -/
theorem isSecondOfThree_of {a b : UInt8} (hb : isContinuation b)
    (hoverlong : a.toNat = 0xe0 → 0xa0 ≤ b.toNat) (hsurrogate : a.toNat = 0xed → b.toNat < 0xa0) :
    isSecondOfThree a b = true := by
  rw [isSecondOfThree, hb, Bool.true_and]
  split
  · next ha => exact decide_eq_true (UInt8.le_iff_toNat_le.mpr (hoverlong (ha ▸ rfl)))
  · split
    · next ha => exact decide_eq_true (UInt8.lt_iff_toNat_lt.mpr (hsurrogate (ha ▸ rfl)))
    · rfl

/-- The second byte of four excludes overlong forms and numbers beyond the last character. -/
theorem isSecondOfFour_of {a b : UInt8} (hb : isContinuation b)
    (hoverlong : a.toNat = 0xf0 → 0x90 ≤ b.toNat) (hlast : a.toNat = 0xf4 → b.toNat < 0x90) :
    isSecondOfFour a b = true := by
  rw [isSecondOfFour, hb, Bool.true_and]
  split
  · next ha => exact decide_eq_true (UInt8.le_iff_toNat_le.mpr (hoverlong (ha ▸ rfl)))
  · split
    · next ha => exact decide_eq_true (UInt8.lt_iff_toNat_lt.mpr (hlast (ha ▸ rfl)))
    · rfl

/-! ### The bytes of a character -/

variable {n : Nat}

theorem toNat_ofNat_of_lt (h : n < 256) : (UInt8.ofNat n).toNat = n := by
  rw [UInt8.toNat_ofNat']
  omega

/-- A byte of six bits continues a sequence. -/
theorem isContinuation_ofNat (h : n < 64) : isContinuation (UInt8.ofNat (n + 0x80)) = true := by
  have hn : (UInt8.ofNat (n + 0x80)).toNat = n + 0x80 := toNat_ofNat_of_lt (by omega)
  simp only [isContinuation, Bool.and_eq_true, decide_eq_true_eq, UInt8.le_iff_toNat_le,
    UInt8.lt_iff_toNat_lt, hn]
  exact ⟨Nat.le_add_left _ _, by simp; omega⟩

theorem toNat_continuation (m : Nat) :
    (UInt8.ofNat (m % 0x40 + 0x80)).toNat = m % 0x40 + 0x80 :=
  toNat_ofNat_of_lt (by omega)

section

variable {rest : List UInt8} {at_ : Nat}

theorem decodeFrom_ofNat_one (h : n < 0x80) :
    decodeFrom at_ (UInt8.ofNat n :: rest) = push (Char.ofNat n) (decodeFrom (at_ + 1) rest) := by
  have ha : (UInt8.ofNat n).toNat = n := toNat_ofNat_of_lt (by omega)
  rw [decodeFrom_one (by omega), ha]

theorem decodeFrom_ofNat_two (hlow : 0x80 ≤ n) (hhigh : n < 0x800) :
    decodeFrom at_ (UInt8.ofNat (n / 64 % 0x20 + 0xc0) :: UInt8.ofNat (n % 0x40 + 0x80) :: rest) =
      push (Char.ofNat n) (decodeFrom (at_ + 2) rest) := by
  have ha : (UInt8.ofNat (n / 64 % 0x20 + 0xc0)).toNat = n / 64 % 0x20 + 0xc0 :=
    toNat_ofNat_of_lt (by omega)
  have hjoin : join 32 (UInt8.ofNat (n / 64 % 0x20 + 0xc0)) [UInt8.ofNat (n % 0x40 + 0x80)] =
      Char.ofNat n := by
    simp only [join, List.foldl_cons, List.foldl_nil, ha, toNat_continuation]
    congr 1
    omega
  rw [decodeFrom_two (by omega) (by omega) (isContinuation_ofNat (by omega)), hjoin]

theorem decodeFrom_ofNat_three (hlow : 0x800 ≤ n) (hhigh : n < 0x10000)
    (hvalid : n < 0xd800 ∨ 0xdfff < n) :
    decodeFrom at_ (UInt8.ofNat (n / 4096 % 0x10 + 0xe0) :: UInt8.ofNat (n / 64 % 0x40 + 0x80) ::
        UInt8.ofNat (n % 0x40 + 0x80) :: rest) =
      push (Char.ofNat n) (decodeFrom (at_ + 3) rest) := by
  have ha : (UInt8.ofNat (n / 4096 % 0x10 + 0xe0)).toNat = n / 4096 % 0x10 + 0xe0 :=
    toNat_ofNat_of_lt (by omega)
  have hb : isSecondOfThree (UInt8.ofNat (n / 4096 % 0x10 + 0xe0))
      (UInt8.ofNat (n / 64 % 0x40 + 0x80)) = true :=
    isSecondOfThree_of (isContinuation_ofNat (by omega)) (by rw [ha, toNat_continuation]; omega)
      (by rw [ha, toNat_continuation]; omega)
  have hjoin : join 16 (UInt8.ofNat (n / 4096 % 0x10 + 0xe0))
      [UInt8.ofNat (n / 64 % 0x40 + 0x80), UInt8.ofNat (n % 0x40 + 0x80)] = Char.ofNat n := by
    simp only [join, List.foldl_cons, List.foldl_nil, ha, toNat_continuation]
    congr 1
    omega
  rw [decodeFrom_three (by omega) (by omega) hb (isContinuation_ofNat (by omega)), hjoin]

theorem decodeFrom_ofNat_four (hlow : 0x10000 ≤ n) (hhigh : n < 0x110000) :
    decodeFrom at_ (UInt8.ofNat (n / 262144 % 0x8 + 0xf0) ::
        UInt8.ofNat (n / 4096 % 0x40 + 0x80) :: UInt8.ofNat (n / 64 % 0x40 + 0x80) ::
        UInt8.ofNat (n % 0x40 + 0x80) :: rest) =
      push (Char.ofNat n) (decodeFrom (at_ + 4) rest) := by
  have ha : (UInt8.ofNat (n / 262144 % 0x8 + 0xf0)).toNat = n / 262144 % 0x8 + 0xf0 :=
    toNat_ofNat_of_lt (by omega)
  have hb : isSecondOfFour (UInt8.ofNat (n / 262144 % 0x8 + 0xf0))
      (UInt8.ofNat (n / 4096 % 0x40 + 0x80)) = true :=
    isSecondOfFour_of (isContinuation_ofNat (by omega)) (by rw [ha, toNat_continuation]; omega)
      (by rw [ha, toNat_continuation]; omega)
  have hjoin : join 8 (UInt8.ofNat (n / 262144 % 0x8 + 0xf0))
      [UInt8.ofNat (n / 4096 % 0x40 + 0x80), UInt8.ofNat (n / 64 % 0x40 + 0x80),
        UInt8.ofNat (n % 0x40 + 0x80)] = Char.ofNat n := by
    simp only [join, List.foldl_cons, List.foldl_nil, ha, toNat_continuation]
    congr 1
    omega
  rw [decodeFrom_four (by omega) (by omega) hb (isContinuation_ofNat (by omega))
    (isContinuation_ofNat (by omega)), hjoin]

end

/-- **A character is decoded from its bytes.** -/
theorem exists_decodeFrom_utf8EncodeChar (c : Char) (at_ : Nat) :
    ∃ next, ∀ rest,
      decodeFrom at_ (String.utf8EncodeChar c ++ rest) = push c (decodeFrom next rest) := by
  have hvalid : c.toNat < 0xd800 ∨ 0xdfff < c.toNat ∧ c.toNat < 0x110000 := c.valid
  have hself : Char.ofNat c.toNat = c := Char.ofNat_toNat c
  have hval : c.val.toNat = c.toNat := rfl
  unfold String.utf8EncodeChar
  simp only [hval]
  generalize c.toNat = n at hvalid hself
  obtain rfl := hself
  split
  · exact ⟨at_ + 1, fun rest ↦ decodeFrom_ofNat_one (by omega)⟩
  split
  · exact ⟨at_ + 2, fun rest ↦ decodeFrom_ofNat_two (by omega) (by omega)⟩
  split
  · exact ⟨at_ + 3, fun rest ↦ decodeFrom_ofNat_three (by omega) (by omega) (by omega)⟩
  · exact ⟨at_ + 4, fun rest ↦ decodeFrom_ofNat_four (by omega) (by omega)⟩

/-- **A text is decoded from its encoding.** -/
theorem decode_encode (s : Text) : decode (encode s) = .ok s := by
  have hfrom : ∀ at_, decodeFrom at_ (encode s) = .ok s := by
    induction s with
    | nil => exact fun _ ↦ rfl
    | cons c s ih =>
      intro at_
      obtain ⟨next, hnext⟩ := exists_decodeFrom_utf8EncodeChar c at_
      rw [encode, List.flatMap_cons, hnext]
      show push c (decodeFrom next (encode s)) = _
      rw [ih next]
      rfl
  exact hfrom 0

end Utf8

namespace Text

theorem normalizeLines_eq_self {s : Text} (h : '\r' ∉ s) : normalizeLines s = s := by
  fun_induction normalizeLines s with
  | case1 => rfl
  | case2 rest | case3 rest => exact absurd List.mem_cons_self h
  | case4 c rest _ _ ih => rw [ih fun hr ↦ h (List.mem_cons_of_mem c hr)]

end Text

end YulPlus
