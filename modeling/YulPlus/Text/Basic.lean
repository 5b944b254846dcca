/-!
# Texts

Sources, signatures and lowered code are lists of characters, so every scanner is a recursion on
the characters that are left. This module holds the operations that more than one scanner needs:
dropping a known beginning, searching for a part, and writing numbers in a base.
-/

namespace YulPlus

/-- The characters of a source text or of a part of it. -/
abbrev Text := List Char

namespace Text

/-- The rest of `s` after the beginning `head`, if `s` begins with it. -/
def dropHead? (head : Text) (s : Text) : Option Text :=
  if head.isPrefixOf s then some (s.drop head.length) else none

/-- What is left of a text is not longer than the text. -/
theorem length_dropWhile_le (p : Char → Bool) (s : Text) : (s.dropWhile p).length ≤ s.length :=
  (List.dropWhile_suffix p).length_le

theorem length_of_dropHead {head s rest : Text} (h : dropHead? head s = some rest) :
    head.length + rest.length = s.length := by
  unfold dropHead? at h
  split at h
  · rename_i hp
    have := (List.isPrefixOf_iff_prefix.1 hp).length_le
    simp at h
    rw [← h]
    simp
    omega
  · simp at h

/-- Cut `s` at the first place where `part` stands: what comes before it and what comes after it. -/
def cutAt? (part : Text) : Text → Option (Text × Text)
  | [] => if part.isEmpty then some ([], []) else none
  | c :: rest =>
    match dropHead? part (c :: rest) with
    | some after => some ([], after)
    | none => (cutAt? part rest).map fun (before, after) => (c :: before, after)

/-- Does `part` stand somewhere in `s`? -/
def hasPart (part s : Text) : Bool :=
  (cutAt? part s).isSome

/-- Put `separator` between the texts of a list. -/
def joinWith (separator : Text) : List Text → Text
  | [] => []
  | [s] => s
  | s :: rest => s ++ separator ++ joinWith separator rest

theorem joinWith_cons_cons (separator s t : Text) (rest : List Text) :
    joinWith separator (s :: t :: rest) = s ++ separator ++ joinWith separator (t :: rest) := rfl

/-- The decimal digits of `n`. -/
def decimal (n : Nat) : Text :=
  Nat.toDigits 10 n

/-- The lower-case hexadecimal digits of `n`, with zeros in front up to `width` places. -/
def hexPadded (width n : Nat) : Text :=
  let digits := Nat.toDigits 16 n
  List.replicate (width - digits.length) '0' ++ digits

end Text

end YulPlus
