import YulPlus.Text.Basic

/-!
# Positions in a source text

A position counts lines and columns from one and offsets from zero; all three count characters. A
line feed ends a line and no other character does. The position after a piece of text depends only
on the position before it and on the piece: `Position.after`.
-/

namespace YulPlus

/-- A place between two characters of a source text. -/
structure Position where
  /-- One plus the number of line feeds before the place. -/
  line : Nat := 1
  /-- One plus the number of characters since the last line feed. -/
  column : Nat := 1
  /-- The number of characters before the place. -/
  offset : Nat := 0
deriving DecidableEq, Repr

namespace Position

/-- The beginning of a text. -/
def start : Position := {}

/-- The position behind one character. -/
def advance (p : Position) (c : Char) : Position :=
  if c = '\n' then ⟨p.line + 1, 1, p.offset + 1⟩ else ⟨p.line, p.column + 1, p.offset + 1⟩

/-- The position behind a piece of text. -/
def after (p : Position) (s : Text) : Position :=
  s.foldl advance p

@[simp] theorem after_nil (p : Position) : p.after [] = p := rfl

@[simp] theorem after_cons (p : Position) (c : Char) (s : Text) :
    p.after (c :: s) = (p.advance c).after s := rfl

/-- Walking over two pieces is walking over one and then over the other. -/
theorem after_append (p : Position) (s t : Text) : p.after (s ++ t) = (p.after s).after t := by
  simp [after]

@[simp] theorem advance_offset (p : Position) (c : Char) :
    (p.advance c).offset = p.offset + 1 := by
  unfold advance
  split <;> rfl

/-- The offset grows by the number of characters walked over. -/
@[simp] theorem after_offset (p : Position) (s : Text) :
    (p.after s).offset = p.offset + s.length := by
  induction s generalizing p with
  | nil => rfl
  | cons c s ih => simp [ih]; omega

end Position

end YulPlus
