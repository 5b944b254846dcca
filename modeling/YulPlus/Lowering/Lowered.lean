import YulPlus.Lowering.Scope
import YulPlus.Lowering.Segment

/-!
# Lowering a source

`lower` turns a source into plain Yul and the interface that the source declares. The checks come in
a fixed order, which decides the error of a source with several faults: the tokens, the nesting of
brackets, the hash literals, the shape of the scopes, declarations outside of scopes, and then the
scopes one after the other.

The code of the result is the source with edits applied, so comments and layout outside of the
edited stretches stay as they are.
-/

namespace YulPlus

/-- Plain Yul and the interface of the source that it was lowered from. -/
structure Lowered where
  code : Text
  interface : Interface
deriving DecidableEq, Repr

namespace Segment

/-- The edits of a segment. A token outside of every scope is replaced only if it is a hash
literal. -/
def edits (source : Text) (interface : Interface) :
    Segment → Except LoweringError (List Edit)
  | outside t => .ok (({} : Bindings).edit? interface t).toList
  | scope opening body closing => scopeEdits source interface opening body closing

/-- The edits of a list of segments, in the order of the source. -/
def allEdits (source : Text) (interface : Interface) :
    List Segment → Except LoweringError (List Edit)
  | [] => .ok []
  | segment :: rest =>
    match segment.edits source interface with
    | .error e => .error e
    | .ok first =>
      match allEdits source interface rest with
      | .error e => .error e
      | .ok more => .ok (first ++ more)

end Segment

/-- The interface of a token list and the edits that lower it. -/
def lowerTokens (source : Text) (tokens : List Token) :
    Except LoweringError (Interface × List Edit) := do
  (checkBrackets [] tokens).mapError .located
  let interface ← (Interface.ofTokens tokens).mapError .located
  let segments ← (Segment.ofTokens (Segment.usesObjects tokens) tokens).mapError .located
  (Segment.checkOutside segments).mapError .located
  let edits ← Segment.allEdits source interface segments
  return (interface, edits)

/-- Lower a source to plain Yul. -/
def lower (source : Text) : Except LoweringError Lowered := do
  let tokens ← (tokenize source).mapError fun e => .located e.toSyntaxError
  let (interface, edits) ← lowerTokens source tokens
  return ⟨Edit.applyAll edits source, interface⟩

end YulPlus
