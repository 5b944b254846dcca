import YulPlus.Yaml.Node

/-!
# Values of YAML documents

What the nodes of a document stand for. A quoted scalar is a text, a plain one means what
`Yaml.ofPlain` says; the plain scalars `=` and `<<` have a meaning of their own in YAML, which is
not read here, except that `=` may be a key. The keys of a mapping are scalars.
-/

namespace YulPlus

namespace Yaml

/-- The scalar of a node that is a key. -/
def keyOfNode : Node → Except Fault Scalar
  | .scalar true s => if s = ['<', '<'] then .error .malformed else ofPlain s
  | .scalar false s => .ok (.text s)
  | _ => .error .malformed

mutual

/-- The value of a node. -/
def valueOfNode : Node → Except Fault Value
  | .scalar true s =>
    if s = ['<', '<'] || s = ['='] then .error .malformed
    else
      match ofPlain s with
      | .error fault => .error fault
      | .ok scalar => .ok (.scalar scalar)
  | .scalar false s => .ok (.text s)
  | .sequence items =>
    match valuesOfNodes items with
    | .error fault => .error fault
    | .ok values => .ok (.list values)
  | .mapping entries =>
    match entriesOfNodes entries with
    | .error fault => .error fault
    | .ok pairs => .ok (.map (Value.ofEntries pairs))

/-- The values of nodes in a row. -/
def valuesOfNodes : List Node → Except Fault (List Value)
  | [] => .ok []
  | node :: rest =>
    match valueOfNode node, valuesOfNodes rest with
    | .error fault, _ => .error fault
    | .ok _, .error fault => .error fault
    | .ok v, .ok vs => .ok (v :: vs)

/-- The entries of a mapping as they are written. -/
def entriesOfNodes : List (Node × Node) → Except Fault (List (Scalar × Value))
  | [] => .ok []
  | (key, node) :: rest =>
    match keyOfNode key, valueOfNode node, entriesOfNodes rest with
    | .error fault, _, _ => .error fault
    | .ok _, .error fault, _ => .error fault
    | .ok _, .ok _, .error fault => .error fault
    | .ok k, .ok v, .ok pairs => .ok ((k, v) :: pairs)

end

/-- Read a YAML text. -/
def parse (s : Text) : Except Fault Value :=
  match Node.ofText s with
  | .error fault => .error fault
  | .ok node => valueOfNode node

namespace Fault

/-- The wording of a fault. -/
def message : Fault → Text
  | malformed => "malformed text".toList
  | noCharacter => "chr() arg not in range(0x110000)".toList
  | integer fault => fault.message
  | emptyInteger base =>
    "invalid literal for int() with base ".toList ++ Text.decimal base ++ ": ''".toList

end Fault

end Yaml

end YulPlus
