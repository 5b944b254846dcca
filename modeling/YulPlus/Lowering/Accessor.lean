import YulPlus.Lowering.Binding

/-!
# Generated functions

The functions that lowering adds behind the opening brace of a scope. A memory struct `S` gets for
each field `f` the functions `S.f.position`, `S.f.size` and `S.f`, and `S.size` for the whole; the
offset of a field is the sum of the sizes before it. `mslice` and `require` are the two library
functions that the language knows; they are added where they are needed and not defined.
-/

namespace YulPlus

open Text

/-- The library function that reads up to 32 bytes of memory as a number. -/
def sliceHelper : Text :=
  ("function mslice(position, length) -> result \x7b\n" ++
    "  result := shr(sub(256, mul(length, 8)), mload(position))\n" ++
    "\x7d").toList

/-- The library function that reverts unless its argument is positive. -/
def requireHelper : Text :=
  ("function require(arg) \x7b\n  if lt(arg, 1) \x7b\n    revert(0, 0)\n  \x7d\n\x7d").toList

/-- The name of the library function that reads memory. -/
def sliceName : Text := "mslice".toList

/-- The name of the library function that checks a condition. -/
def requireName : Text := "require".toList

namespace Field

/-- The three functions of a field that stands `offset` bytes behind the start of `struct`. -/
def accessors (struct : Text) (offset : Nat) (field : Field) : List Text :=
  let name := struct ++ '.' :: field.name
  let size := decimal field.size
  [ "function ".toList ++ name ++ ".position(_pos) -> _offset \x7b _offset := add(_pos, ".toList ++
      decimal offset ++ ") \x7d".toList,
    "function ".toList ++ name ++ ".size() -> _size \x7b _size := ".toList ++ size ++
      " \x7d".toList,
    "function ".toList ++ name ++ "(_pos) -> _value \x7b _value := mslice(".toList ++ name ++
      ".position(_pos), ".toList ++ size ++ ") \x7d".toList ]

end Field

namespace Struct

/-- The functions of the fields from `offset` on, and then the function of the total size. -/
def accessorsFrom (struct : Text) (offset : Nat) : List Field → List Text
  | [] =>
    ["function ".toList ++ struct ++ ".size() -> _size \x7b _size := ".toList ++ decimal offset ++
      " \x7d".toList]
  | field :: rest =>
    field.accessors struct offset ++ accessorsFrom struct (offset + field.size) rest

/-- The functions of a struct. -/
def accessors (s : Struct) : List Text :=
  accessorsFrom s.name 0 s.fields

end Struct

end YulPlus
