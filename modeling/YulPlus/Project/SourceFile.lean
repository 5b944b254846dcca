import YulPlus.FileTree.Basic

/-!
# Source files

The sources of a project are the files below its source directory whose names end in the extension
of a dialect. Hidden files and whatever lies in hidden directories are left out, and linked
directories are not entered; a linked file is found under the location that it leads to. The result
is sorted by locations, name by name.

A source is named by its location relative to the project root, which is also what its contract and
its artifact are named by.
-/

namespace YulPlus

open Text

/-- The two dialects of sources. -/
inductive Dialect
  | yul
  | yulPlus
deriving DecidableEq, Repr

namespace Dialect

/-- The extension of the files of a dialect. -/
def extension : Dialect → Text
  | yul => "yul".toList
  | yulPlus => "yulp".toList

/-- The dialect that has an extension. -/
def ofExtension? (s : Text) : Option Dialect :=
  if s = yul.extension then some yul
  else if s = yulPlus.extension then some yulPlus
  else none

/-- All dialects, in the order in which a project is compiled. -/
def all : List Dialect := [yul, yulPlus]

end Dialect

/-- A source file of a project. -/
structure SourceFile where
  location : Location
  /-- The location relative to the project root. -/
  sourceName : Text
  dialect : Dialect
deriving DecidableEq, Repr

/-- A path that does not lead below the project root. -/
structure OutsideRoot where
  path : Path
  root : Path
deriving DecidableEq, Repr

namespace OutsideRoot

/-- The wording of the error. -/
def message (e : OutsideRoot) : Text :=
  "Source file '".toList ++ e.path.text ++ "' is outside of the project root '".toList ++
    e.root.text ++ ['\'']

end OutsideRoot

/-- Is a name hidden? -/
def isHiddenName (name : Text) : Bool :=
  name.head? = some '.'

/-- Does a name end in an extension? -/
def hasExtension (extension name : Text) : Bool :=
  ('.' :: extension).isSuffixOf name

namespace FileTree

/-- Is what stands below `base` at the location `l` a source file of the extension? -/
def isSource (t : FileTree) (extension : Text) (base l : Location) : Bool :=
  let relative := l.drop base.length
  hasExtension extension (relative.getLastD []) && t.isFile (Path.ofLocation l) &&
    !relative.any isHiddenName

/-- The locations of the sources of a dialect below a directory. -/
def findSources (t : FileTree) (directory : Path) (dialect : Dialect) : List Location :=
  if t.isDirectory directory then
    match t.walk true directory with
    | .error _ => []
    | .ok base =>
      let found := (t.below base).filter fun entry => t.isSource dialect.extension base entry.1
      (found.map fun entry => t.resolve (Path.ofLocation entry.1)).mergeSort Path.partsLE
  else []

end FileTree

namespace SourceFile

/-- The text of the location of a source. -/
def path (s : SourceFile) : Path :=
  Path.ofLocation s.location

/-- The source that a path leads to, if it lies below the project root. -/
def ofPath (t : FileTree) (root path : Path) (dialect : Dialect) :
    Except OutsideRoot SourceFile :=
  let base := t.resolve root
  let location := t.resolve path
  if base.isPrefixOf location then
    .ok ⟨location, Path.text ⟨[], location.drop base.length⟩, dialect⟩
  else .error ⟨path, root⟩

/-- The name of the contract in a source. -/
def contractName (s : SourceFile) : Text :=
  YulPlus.contractName s.sourceName

end SourceFile

end YulPlus
