import YulPlus.Lowering.Error

/-!
# Brackets and blocks

Two views of nesting. `checkBrackets` walks once over all tokens with a stack of the brackets that
are open, and refuses a source whose braces and parentheses do not nest together. `closeBlock` finds
the end of a single block by counting braces alone, which is enough once the first check has passed.
-/

namespace YulPlus

namespace TokenKind

/-- Does this kind open a bracket? -/
def isOpening (k : TokenKind) : Bool :=
  k = openBrace || k = openParen

/-- The opening kind that a closing kind belongs to. -/
def opening? : TokenKind → Option TokenKind
  | closeBrace => some openBrace
  | closeParen => some openParen
  | _ => none

end TokenKind

/-- Check that the brackets of a token list close those on the stack, innermost first, and nothing
else stays open. -/
def checkBrackets : List Token → List Token → Except SyntaxError Unit
  | [], [] => .ok ()
  | top :: _, [] => .error (top.error (.unclosedBracket top.value))
  | stack, t :: rest =>
    match t.kind.opening? with
    | some opening =>
      match stack with
      | [] => .error (t.error (.unexpectedBracket t.value))
      | top :: below =>
        if top.kind = opening then checkBrackets below rest
        else .error (t.error (.unexpectedBracket t.value))
    | none =>
      if t.kind.isOpening then checkBrackets (t :: stack) rest else checkBrackets stack rest

theorem checkBrackets_nil : checkBrackets [] [] = .ok () := by
  rw [checkBrackets]

/-- The inside of a block that is already open, its closing brace and the tokens behind it; the
first argument counts the braces opened since. -/
def closeBlock : Nat → List Token → Option (List Token × Token × List Token)
  | _, [] => none
  | depth, t :: rest =>
    if t.kind = .openBrace then
      (closeBlock (depth + 1) rest).map fun (inner, closing, after) => (t :: inner, closing, after)
    else if t.kind = .closeBrace then
      match depth with
      | 0 => some ([], t, rest)
      | depth + 1 =>
        (closeBlock depth rest).map fun (inner, closing, after) => (t :: inner, closing, after)
    else
      (closeBlock depth rest).map fun (inner, closing, after) => (t :: inner, closing, after)

/-- A closed block is the inside, the closing brace and the rest, with nothing lost. -/
theorem append_of_closeBlock {depth : Nat} {tokens inner after : List Token} {closing : Token}
    (h : closeBlock depth tokens = some (inner, closing, after)) :
    inner ++ closing :: after = tokens := by
  fun_induction closeBlock depth tokens generalizing inner closing after with
  | case1 => simp at h
  | case2 _ _ _ _ ih | case4 _ _ _ _ _ ih | case5 _ _ _ _ _ ih =>
    obtain ⟨⟨i, c, a⟩, hia, heq⟩ := Option.map_eq_some_iff.1 h
    simp at heq
    obtain ⟨rfl, rfl, rfl⟩ := heq
    simp [ih hia]
  | case3 _ _ _ _ =>
    simp at h
    obtain ⟨rfl, rfl, rfl⟩ := h
    rfl

end YulPlus
