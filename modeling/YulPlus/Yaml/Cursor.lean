import YulPlus.Text.Basic

/-!
# Reading positions in a YAML text

YAML knows five line breaks; a carriage return and a line feed together are one. Layout is decided
by lines and columns, both counted from zero, so the rest of a text is read through a `Cursor` that
counts them. A byte order mark takes no column.
-/

namespace YulPlus

namespace Yaml

/-- Does `c` break a line? -/
def isBreak (c : Char) : Bool :=
  c = '\n' || c = '\r' || c = '\x85' || c = '\u2028' || c = '\u2029'

/-- Is `c` a space, a tab or a line break? -/
def isSeparator (c : Char) : Bool :=
  c = ' ' || c = '\t' || isBreak c

/-- May `c` stand in a YAML text at all? -/
def isAllowed (c : Char) : Bool :=
  let n := c.toNat
  n = 0x9 || n = 0xa || n = 0xd || (0x20 ≤ n && n ≤ 0x7e) || n = 0x85 ||
    (0xa0 ≤ n && n ≤ 0xfffd) || 0x10000 ≤ n

/-- Does a text end here, or go on with a separator? -/
def atSeparator : Text → Bool
  | [] => true
  | c :: _ => isSeparator c

/-- Does one of the two marks that divide documents stand here? -/
def atDocumentMark (s : Text) : Bool :=
  (List.isPrefixOf ['-', '-', '-'] s || List.isPrefixOf ['.', '.', '.'] s) &&
    atSeparator (s.drop 3)

/-- The rest of a text and the place where it begins. -/
structure Cursor where
  rest : Text
  line : Nat := 0
  column : Nat := 0
  index : Nat := 0
deriving DecidableEq, Repr

namespace Cursor

/-- The place behind one character. -/
def next (k : Cursor) : Cursor :=
  match k.rest with
  | [] => k
  | c :: rest =>
    if isBreak c && !(c = '\r' && rest.head? = some '\n') then ⟨rest, k.line + 1, 0, k.index + 1⟩
    else if c = '\ufeff' then ⟨rest, k.line, k.column, k.index + 1⟩
    else ⟨rest, k.line, k.column + 1, k.index + 1⟩

/-- The place behind `n` characters. -/
def skip : Nat → Cursor → Cursor
  | 0, k => k
  | n + 1, k => skip n k.next

/-- The characters from here on that are in a class, and the place behind them. -/
def takeWhile (p : Char → Bool) (k : Cursor) : Text × Cursor :=
  let taken := k.rest.takeWhile p
  (taken, k.skip taken.length)

/-- The line break that stands here, in its normal form, and the place behind it. -/
def lineBreak? (k : Cursor) : Option (Char × Cursor) :=
  match k.rest with
  | '\r' :: '\n' :: _ => some ('\n', k.skip 2)
  | c :: _ =>
    if c = '\u2028' || c = '\u2029' then some (c, k.next)
    else if isBreak c then some ('\n', k.next)
    else none
  | [] => none

theorem next_rest (k : Cursor) : k.next.rest = k.rest.tail := by
  unfold next
  split
  · simp_all
  · split
    · simp_all
    · split <;> simp_all

theorem skip_rest (n : Nat) (k : Cursor) : (k.skip n).rest = k.rest.drop n := by
  induction n generalizing k with
  | zero => simp [skip]
  | succ n ih => rw [skip, ih, next_rest, List.drop_tail]

theorem lineBreak_length {k after : Cursor} {c : Char} (h : k.lineBreak? = some (c, after)) :
    after.rest.length < k.rest.length := by
  unfold lineBreak? at h
  split at h
  · rename_i rest heq
    simp only [Option.some.injEq, Prod.mk.injEq] at h
    rw [← h.2, skip_rest, heq]
    simp only [List.drop_succ_cons, List.drop_zero, List.length_cons]
    omega
  · rename_i c' rest _ heq
    split at h
    · simp only [Option.some.injEq, Prod.mk.injEq] at h
      rw [← h.2, next_rest, heq]
      simp
    · split at h
      · simp only [Option.some.injEq, Prod.mk.injEq] at h
        rw [← h.2, next_rest, heq]
        simp
      · simp at h
  · simp at h

end Cursor

end Yaml

end YulPlus
