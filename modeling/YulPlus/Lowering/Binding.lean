import YulPlus.Lowering.Edit
import YulPlus.Lowering.Interface

/-!
# Names of a scope

The declarations of a scope bind names: the qualified members of an enum and the constants to texts,
and memory structs to their field lists. `Bindings.declares` is what makes a second declaration of a
name an error; `Bindings.replacement?` is the text that stands for a token in the lowered code.
-/

namespace YulPlus

/-- A field of a memory struct and the number of bytes it takes. -/
structure Field where
  name : Text
  size : Nat
deriving DecidableEq, Repr

/-- A memory struct with its fields in order. -/
structure Struct where
  name : Text
  fields : List Field
deriving DecidableEq, Repr

/-- What the declarations of a scope have bound so far, in order. -/
structure Bindings where
  values : List (Text × Text) := []
  structs : List Struct := []
deriving DecidableEq, Repr

namespace Bindings

/-- Is the name taken, by a value or by a struct? -/
def declares (b : Bindings) (name : Text) : Bool :=
  (b.values.any fun entry => entry.1 = name) || b.structs.any fun s => s.name = name

/-- The text that a name is bound to. -/
def value? (b : Bindings) (name : Text) : Option Text :=
  (b.values.find? fun entry => entry.1 = name).map (·.2)

/-- Bind a name to a text; `t` is at fault if the name is taken. -/
def bindValue (b : Bindings) (t : Token) (name value : Text) : Except SyntaxError Bindings :=
  if b.declares name then .error (t.error (.duplicateName name))
  else .ok { b with values := b.values ++ [(name, value)] }

/-- Bind a struct under the name that `t` spells. -/
def bindStruct (b : Bindings) (t : Token) (fields : List Field) : Except SyntaxError Bindings :=
  if b.declares t.value then .error (t.error (.duplicateName t.value))
  else .ok { b with structs := b.structs ++ [⟨t.value, fields⟩] }

/-- The text that a token is replaced by: the hash of a hash literal, the value of a bound name. -/
def replacement? (b : Bindings) (interface : Interface) (t : Token) : Option Text :=
  if t.kind = .identifier then b.value? t.value else interface.hash? t

/-- The edit that replaces a token, if it is to be replaced. -/
def edit? (b : Bindings) (interface : Interface) (t : Token) : Option Edit :=
  (b.replacement? interface t).map fun text => ⟨t.start.offset, t.stop, text⟩

end Bindings

end YulPlus
