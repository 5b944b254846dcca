import YulPlus.Decimal.Notation

/-!
# Values of data formats

JSON and YAML texts are read into one type of value. A map is a list of entries in the order in
which its keys first appeared; `Value.insert` keeps a key at its place and replaces what it held.
Keys are scalars, and two of them count as the same key if they are equal as numbers: `1`, `1.0` and
`true` are one key.
-/

namespace YulPlus

/-- A value without parts. -/
inductive Scalar
  | null
  | bool (b : Bool)
  | int (n : Int)
  | float (x : Binary64)
  | text (s : Text)
deriving DecidableEq, Repr, Inhabited

/-- A value of a data format. -/
inductive Value
  | scalar (s : Scalar)
  | list (items : List Value)
  | map (entries : List (Scalar × Value))
deriving Repr, Inhabited

namespace Scalar

/-- The integer that a scalar counts as when keys are compared. -/
def asInt? : Scalar → Option Int
  | bool b => some (if b then 1 else 0)
  | int n => some n
  | _ => none

/-- Are two scalars the same key? -/
def sameKey (a b : Scalar) : Bool :=
  match a, b with
  | text s, text t => s = t
  | null, null => true
  | float x, float y => x.equals y
  | float x, _ => (b.asInt?.map x.equalsInt).getD false
  | _, float y => (a.asInt?.map y.equalsInt).getD false
  | _, _ =>
    match a.asInt?, b.asInt? with
    | some m, some n => m = n
    | _, _ => false

/-- The text of a number or a truth value in a message, capitalised words for the latter. -/
def display : Scalar → Text
  | null => "None".toList
  | bool b => if b then "True".toList else "False".toList
  | int n => (toString n).toList
  | float x => plainNotation.render x
  | text s => s

end Scalar

namespace Value

/-- The value of no content. -/
def null : Value := scalar .null

/-- A text as a value. -/
def text (s : Text) : Value := scalar (.text s)

/-- A truth value as a value. -/
def bool (b : Bool) : Value := scalar (.bool b)

/-- An integer as a value. -/
def int (n : Int) : Value := scalar (.int n)

/-- A map whose keys are texts. -/
def record (entries : List (Text × Value)) : Value :=
  map (entries.map fun (key, value) => (.text key, value))

/-- A record whose field names are given as strings. -/
def fields (entries : List (String × Value)) : Value :=
  record (entries.map fun (name, value) => (name.toList, value))

/-- Put an entry into a map: behind all others if the key is new, else in the place of the entry
with the same key. -/
def insert (key : Scalar) (value : Value) : List (Scalar × Value) → List (Scalar × Value)
  | [] => [(key, value)]
  | (k, v) :: rest =>
    if k.sameKey key then (k, value) :: rest else (k, v) :: insert key value rest

/-- The entries of a map that was written entry by entry. -/
def ofEntries (entries : List (Scalar × Value)) : List (Scalar × Value) :=
  entries.foldl (fun done (key, value) => insert key value done) []

/-- The value under a text key. -/
def find? (key : Text) (entries : List (Scalar × Value)) : Option Value :=
  (entries.find? fun entry => entry.1 = .text key).map (·.2)

end Value

end YulPlus
