import YulPlus.Lowering.Bracket

/-!
# Scopes of a source

Declarations live in scopes. In a source with objects the scopes are its `code` blocks, wherever
they stand outside of another `code` block; in a source without any `object` keyword they are the
outermost brace blocks. `Segment.ofTokens` cuts a token list into its scopes and the tokens between
them, in order and without loss: `Segment.tokens` gives the list back.
-/

namespace YulPlus

/-- A token outside of every scope, or a whole scope. -/
inductive Segment
  | outside (token : Token)
  | scope (opening : Token) (body : List Token) (closing : Token)
deriving Repr

namespace Segment

/-- The tokens of a segment in order. -/
def tokens : Segment → List Token
  | outside token => [token]
  | scope opening body closing => opening :: body ++ [closing]

set_option linter.unusedVariables false in
/-- The segments of a token list. With `objects`, a scope opens behind every `code` keyword, where a
brace has to stand; without, at every brace. -/
def ofTokens (objects : Bool) : List Token → Except SyntaxError (List Segment)
  | [] => .ok []
  | t :: rest =>
    if objects && t.kind = .codeWord then
      match rest with
      | [] => .error (t.unexpected [.openBrace])
      | opening :: inside =>
        if opening.kind = .openBrace then
          match h : closeBlock 0 inside with
          | none => .error (opening.error .unterminatedBlock)
          | some (body, closing, after) =>
            match ofTokens objects after with
            | .error e => .error e
            | .ok segments => .ok (outside t :: scope opening body closing :: segments)
        else .error (opening.unexpected [.openBrace])
    else if !objects && t.kind = .openBrace then
      match h : closeBlock 0 rest with
      | none => .error (t.error .unterminatedBlock)
      | some (body, closing, after) =>
        match ofTokens objects after with
        | .error e => .error e
        | .ok segments => .ok (scope t body closing :: segments)
    else
      match ofTokens objects rest with
      | .error e => .error e
      | .ok segments => .ok (outside t :: segments)
termination_by tokens => tokens.length
decreasing_by
  all_goals
    first
      | (have hlen := congrArg List.length (append_of_closeBlock h); simp at hlen ⊢; omega)
      | simp

/-- Does the source use objects? -/
def usesObjects (tokens : List Token) : Bool :=
  tokens.any fun t => t.kind = .objectWord

/-- A declaration may only stand in a scope. -/
def checkOutside (segments : List Segment) : Except SyntaxError Unit :=
  segments.forM fun
    | outside t =>
      if t.kind.isDeclaration then .error (t.error (.declarationOutside t.value)) else .ok ()
    | scope _ _ _ => .ok ()

end Segment

end YulPlus
