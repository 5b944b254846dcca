import YulPlus.Lowering.Accessor
import YulPlus.Lowering.Declaration

/-!
# Lowering a scope

The body of a scope is read once from front to back into items: declarations, which disappear, and
the other tokens, each with the token behind it. The bindings are complete when the body has been
read, so a name may be used before its declaration. Then every kept token gets its edit, and the
functions that the scope needs are inserted behind its opening brace.

The edits of a scope come out in the order of the source: the insertion, which has no width, stands
first, and the items follow.
-/

namespace YulPlus

/-- A part of a scope's body. -/
inductive Item
  /-- A token that is no part of a declaration, and the token behind it. -/
  | kept (token next : Token)
  /-- A declaration, by its first and last token. -/
  | declared (first last : Token)
deriving DecidableEq, Repr

/-- Read the body of a scope: what it binds and the items it consists of. -/
def readBody (source : Text) (interface : Interface) (stop : Token) (b : Bindings) :
    (tokens : List Token) → Except LoweringError (Bindings × List Item)
  | [] => .ok (b, [])
  | t :: rest =>
    if t.kind.isDeclaration then
      match readDeclaration source interface stop b t rest with
      | .error e => .error e
      | .ok d =>
        match readBody source interface stop d.bindings d.rest.val with
        | .error e => .error e
        | .ok (bound, items) => .ok (bound, .declared t d.last :: items)
    else
      match readBody source interface stop b rest with
      | .error e => .error e
      | .ok (bound, items) => .ok (bound, .kept t (rest.headD stop) :: items)
termination_by tokens => tokens.length
decreasing_by
  · have := d.rest.property
    simp
    omega
  · simp

namespace Item

/-- The name of the function whose definition the item begins. -/
def definedName? : Item → Option Text
  | kept t next =>
    if t.kind = .functionWord && next.kind = .identifier then some next.value else none
  | declared _ _ => none

/-- Is the item a call of `name` that no binding replaces? -/
def calls (b : Bindings) (name : Text) : Item → Bool
  | kept t next =>
    t.kind = .identifier && t.value = name && next.kind = .openParen && (b.value? name).isNone
  | declared _ _ => false

/-- The edit of an item: a declaration is deleted, a token is replaced if a replacement is known. -/
def edit? (b : Bindings) (interface : Interface) : Item → Option Edit
  | kept t _ => b.edit? interface t
  | declared first last => some ⟨first.start.offset, last.stop, []⟩

end Item

/-- The functions that a scope needs: those of its structs, then the library functions that it
calls, or that its structs call, unless the scope defines them. -/
def scopeHelpers (b : Bindings) (items : List Item) : List Text :=
  let defined := items.filterMap Item.definedName?
  let slice :=
    (!b.structs.isEmpty || items.any (Item.calls b sliceName)) && !defined.contains sliceName
  let require := items.any (Item.calls b requireName) && !defined.contains requireName
  b.structs.flatMap Struct.accessors ++ (if slice then [sliceHelper] else []) ++
    (if require then [requireHelper] else [])

/-- The insertion of functions behind the opening brace, each on lines of its own. -/
def helperEdits (opening : Token) (helpers : List Text) : List Edit :=
  if helpers.isEmpty then []
  else [⟨opening.stop, opening.stop, '\n' :: Text.joinWith ['\n'] helpers ++ ['\n']⟩]

/-- The edits of a scope. -/
def scopeEdits (source : Text) (interface : Interface) (opening : Token) (body : List Token)
    (closing : Token) : Except LoweringError (List Edit) :=
  match readBody source interface closing {} body with
  | .error e => .error e
  | .ok (b, items) =>
    .ok (helperEdits opening (scopeHelpers b items) ++ items.filterMap (Item.edit? b interface))

end YulPlus
