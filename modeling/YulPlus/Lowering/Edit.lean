import YulPlus.Text.Basic

/-!
# Edits of a text

An edit puts a text in the place of a stretch of characters; a stretch of length zero makes it an
insertion, an empty text a deletion. Edits are applied from front to back in one walk, so they have
to be given in order and must not overlap. What no edit covers is kept as it is.
-/

namespace YulPlus

/-- Replace the characters from offset `start` up to offset `stop` by `text`. -/
structure Edit where
  start : Nat
  stop : Nat
  text : Text
deriving DecidableEq, Repr

namespace Edit

/-- Apply edits to a text whose first character stands at offset `offset`. -/
def applyFrom (offset : Nat) (s : Text) : List Edit → Text
  | [] => s
  | e :: edits =>
    s.take (e.start - offset) ++ e.text ++ applyFrom e.stop (s.drop (e.stop - offset)) edits

/-- Apply edits to a whole text. -/
def applyAll (edits : List Edit) (s : Text) : Text :=
  applyFrom 0 s edits

/-- The characters from offset `start` up to offset `stop`, with the edits inside applied. -/
def applySlice (start stop : Nat) (edits : List Edit) (s : Text) : Text :=
  applyFrom start ((s.take stop).drop start) edits

end Edit

end YulPlus
