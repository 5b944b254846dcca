import YulPlus.Data.Value

/-!
# Checking values against a schema

A value from outside is turned into a domain type field by field. Every fault is kept, not only the
first: `Checked` is a result that collects. Faults come in the order of the declared fields, and
inside a field in the order of its items; each has the path from the top of the value to the place.
-/

namespace YulPlus

open Text

namespace Schema

/-- One step of a path into a value. -/
inductive Step
  | key (name : Text)
  | index (n : Int)
deriving DecidableEq, Repr

/-- What is wrong at a place. -/
inductive Cause
  | missing
  | notText
  | notMap
  | notList
  | notObject
  | unknownField
  | badKey
  | rejected (message : Text)
deriving DecidableEq, Repr

/-- A fault and its place. -/
structure Fault where
  path : List Step
  cause : Cause
deriving DecidableEq, Repr

/-- The outcome of a check: a value, or all the faults that were found. -/
inductive Checked (α : Type) where
  | valid (a : α)
  | invalid (faults : List Fault)
deriving Repr

namespace Checked

/-- Apply a checked function to a checked argument and keep the faults of both. -/
def ap {α β : Type} : Checked (α → β) → Checked α → Checked β
  | valid f, valid a => valid (f a)
  | valid _, invalid faults => invalid faults
  | invalid faults, valid _ => invalid faults
  | invalid first, invalid second => invalid (first ++ second)

instance : Applicative Checked where
  pure := valid
  map f := ap (valid f)
  seq f x := ap f (x ())

/-- The faults of an outcome. -/
def faults {α : Type} : Checked α → List Fault
  | valid _ => []
  | invalid faults => faults

/-- Put a step in front of the paths of all faults. -/
def under {α : Type} (step : Step) : Checked α → Checked α
  | valid a => valid a
  | invalid faults => invalid (faults.map fun fault => { fault with path := step :: fault.path })

/-- A single fault at the place itself. -/
def fail {α : Type} (cause : Cause) : Checked α :=
  invalid [⟨[], cause⟩]

/-- Check a list item by item. -/
def all {α β : Type} (check : α → Checked β) : List α → Checked (List β)
  | [] => valid []
  | a :: rest => (fun b bs => b :: bs) <$> check a <*> all check rest

end Checked

/-! ### Simple shapes -/

/-- A text. -/
def text : Value → Checked Text
  | .scalar (.text s) => .valid s
  | _ => .fail .notText

/-- A value of a shape, or null. -/
def optional {α : Type} (check : Value → Checked α) : Value → Checked (Option α)
  | .scalar .null => .valid none
  | v => some <$> check v

/-- The items with their positions, checked one after the other. -/
def itemsFrom {α : Type} (check : Value → Checked α) (n : Nat) : List Value → Checked (List α)
  | [] => .valid []
  | v :: rest =>
    (fun b bs => b :: bs) <$> (check v).under (.index n) <*> itemsFrom check (n + 1) rest

/-- A list whose items have a shape. -/
def list {α : Type} (check : Value → Checked α) : Value → Checked (List α)
  | .list items => itemsFrom check 0 items
  | _ => .fail .notList

/-- The integers that a path can hold as such, those of 64 bits. -/
def isStepIndex (n : Int) : Bool :=
  -0x8000000000000000 ≤ n && n < 0x8000000000000000

/-- The step into an entry of a map. -/
def keyStep : Scalar → Step
  | .text s => .key s
  | .int n => if isStepIndex n then .index n else .key (Scalar.display (.int n))
  | .bool b => .index (if b then 1 else 0)
  | key => .key key.display

/-- A key of an open map, which has to be a text. -/
def textKey (key : Scalar) : Checked Text :=
  match key with
  | .text s => .valid s
  | _ => (Checked.fail .notText).under (.key "[key]".toList)

/-- An open map from texts to values of a shape. -/
def mapOf {α : Type} (check : Value → Checked α) : Value → Checked (List (Text × α))
  | .map entries =>
    Checked.all
      (fun (key, v) => (Prod.mk <$> textKey key <*> check v).under (keyStep key)) entries
  | _ => .fail .notMap

/-- Any value at all. -/
def anything (v : Value) : Checked Value :=
  .valid v

/-- The entries of an object with declared fields. -/
def object (v : Value) : Checked (List (Scalar × Value)) :=
  match v with
  | .map entries => .valid entries
  | _ => .fail .notObject

/-! ### Fields -/

/-- The spellings of a field: the one on the wire, and a second one that is accepted when the first
does not occur. -/
structure FieldName where
  wire : Text
  plain : Text := wire
deriving DecidableEq, Repr

namespace FieldName

/-- A field with a single spelling. -/
def single (name : String) : FieldName :=
  ⟨name.toList, name.toList⟩

/-- A field with a spelling on the wire and a plain one. -/
def either (wire plain : String) : FieldName :=
  ⟨wire.toList, plain.toList⟩

/-- The spelling that occurs and what stands there. -/
def find? (f : FieldName) (entries : List (Scalar × Value)) : Option (Text × Value) :=
  match Value.find? f.wire entries with
  | some v => some (f.wire, v)
  | none => (Value.find? f.plain entries).map fun v => (f.plain, v)

end FieldName

/-- A field that has to occur. -/
def required {α : Type} (f : FieldName) (check : Value → Checked α)
    (entries : List (Scalar × Value)) : Checked α :=
  match f.find? entries with
  | some (name, v) => (check v).under (.key name)
  | none => (Checked.fail .missing).under (.key f.wire)

/-- A field that may be left out. -/
def field {α : Type} (f : FieldName) (default : α) (check : Value → Checked α)
    (entries : List (Scalar × Value)) : Checked α :=
  match f.find? entries with
  | some (name, v) => (check v).under (.key name)
  | none => .valid default

/-- An object that is read by its fields; what is not declared is passed over. -/
def record {α : Type} (fields : List (Scalar × Value) → Checked α) (v : Value) : Checked α :=
  match object v with
  | .valid entries => fields entries
  | .invalid faults => .invalid faults

/-- One line that names the schema and the number of faults. -/
def report (schema : String) (faults : List Fault) : Text :=
  decimal faults.length ++ " validation error".toList ++
    (if faults.length = 1 then [] else ['s']) ++ " for ".toList ++ schema.toList

end Schema

end YulPlus
