import YulPlus.FileTree.Path
import YulPlus.Text.Quoted
import YulPlus.Text.Utf8

/-!
# File trees

A file tree is a finite map from locations to entries: files with their bytes, directories, and
symbolic links with the location they point to. A location is the list of names from the root; the
root itself is always a directory. A path leads to a location by walking it name by name, through
links, and `..` leads to the parent of the directory that the walk has reached.

* `FileTree.walk` is the walk of the file operations: whatever is walked through has to be there and
  to be a directory.
* `FileTree.resolve` is the same walk without demands: what is not there is passed by its name.

At most forty links are followed in one walk.
-/

namespace YulPlus

/-- The names from the root of a file tree to a place. -/
abbrev Location := List Text

/-- What stands at a location. -/
inductive Entry
  | file (content : List UInt8)
  | directory
  | link (target : Location)
deriving DecidableEq, Repr

/-- A finite map from locations to entries. -/
structure FileTree where
  entries : List (Location × Entry) := []
deriving DecidableEq, Repr

/-- Why a file operation fails. -/
inductive FileFault
  | notFound
  | exists_
  | notDirectory
  | isDirectory
  | tooManyLinks
deriving DecidableEq, Repr

/-- A fault and the path that the operation was given. -/
structure FileError where
  fault : FileFault
  path : Path
deriving DecidableEq, Repr

namespace FileFault

/-- The number and the name of a fault. -/
def describe : FileFault → String
  | notFound => "[Errno 2] No such file or directory"
  | exists_ => "[Errno 17] File exists"
  | notDirectory => "[Errno 20] Not a directory"
  | isDirectory => "[Errno 21] Is a directory"
  | tooManyLinks => "[Errno 40] Too many levels of symbolic links"

end FileFault

namespace FileError

/-- The wording of an error. -/
def message (e : FileError) : Text :=
  e.fault.describe.toList ++ ": ".toList ++ Text.quoted e.path.text

end FileError

namespace FileTree

/-- The entry at a location. -/
def lookup (t : FileTree) (l : Location) : Option Entry :=
  if l.isEmpty then some .directory
  else (t.entries.find? fun entry => entry.1 = l).map (·.2)

/-- Put an entry at a location, in the place of what stood there. -/
def insert (t : FileTree) (l : Location) (e : Entry) : FileTree :=
  if t.entries.any fun entry => entry.1 = l then
    ⟨t.entries.map fun entry => if entry.1 = l then (l, e) else entry⟩
  else ⟨t.entries ++ [(l, e)]⟩

/-- Remove a location and all below it. -/
def erase (t : FileTree) (l : Location) : FileTree :=
  ⟨t.entries.filter fun entry => !l.isPrefixOf entry.1⟩

/-- The locations below a directory, without the entries behind links. -/
def below (t : FileTree) (l : Location) : List (Location × Entry) :=
  t.entries.filter fun entry => l.isPrefixOf entry.1 && entry.1 ≠ l

/-- The most links that one walk follows. -/
def maxLinks : Nat := 40

/-- Walk from a location along names. The location that is reached need not hold an entry, but the
directory around it has to be there. A link in the last place is followed if `follow` says so. -/
def walkFrom (t : FileTree) (follow : Bool) (links : Nat) (here : Location) :
    List Text → Except FileFault Location
  | [] => .ok here
  | name :: rest =>
    match t.lookup here with
    | none => .error .notFound
    | some (.file _) => .error .notDirectory
    | some _ =>
      if name = ['.', '.'] then walkFrom t follow links here.dropLast rest
      else
        match t.lookup (here ++ [name]) with
        | some (.link target) =>
          if rest.isEmpty && !follow then .ok (here ++ [name])
          else
            match links with
            | 0 => .error .tooManyLinks
            | links + 1 => walkFrom t follow links [] (target ++ rest)
        | _ => walkFrom t follow links (here ++ [name]) rest
termination_by names => (links, names.length)

/-- The location that a path leads to. -/
def walk (t : FileTree) (follow : Bool) (p : Path) : Except FileError Location :=
  match t.walkFrom follow maxLinks [] p.parts with
  | .ok l => .ok l
  | .error fault => .error ⟨fault, p⟩

/-- Walk along names and pass by its name whatever cannot be walked through. -/
def resolveFrom (t : FileTree) (links : Nat) (here : Location) : List Text → Location
  | [] => here
  | name :: rest =>
    if name = ['.', '.'] then resolveFrom t links here.dropLast rest
    else
      match t.lookup (here ++ [name]), links with
      | some (.link target), links + 1 => resolveFrom t links [] (target ++ rest)
      | _, links => resolveFrom t links (here ++ [name]) rest
termination_by names => (links, names.length)

/-- The location of a path with links and double dots worked out as far as they can be. -/
def resolve (t : FileTree) (p : Path) : Location :=
  t.resolveFrom maxLinks [] p.parts

/-! ### Questions -/

/-- The entry that a path leads to through all links. -/
def entry? (t : FileTree) (p : Path) : Option Entry :=
  match t.walk true p with
  | .ok l => t.lookup l
  | .error _ => none

/-- Does a path lead to anything? -/
def contains (t : FileTree) (p : Path) : Bool :=
  (t.entry? p).isSome

/-- Does a path lead to a directory? -/
def isDirectory (t : FileTree) (p : Path) : Bool :=
  t.entry? p = some .directory

/-- Does a path lead to a file? -/
def isFile (t : FileTree) (p : Path) : Bool :=
  match t.entry? p with
  | some (.file _) => true
  | _ => false

/-! ### Reading and changing files -/

/-- The bytes of the file that a path leads to. -/
def readBytes (t : FileTree) (p : Path) : Except FileError (List UInt8) :=
  match t.walk true p with
  | .error e => .error e
  | .ok l =>
    match t.lookup l with
    | some (.file content) => .ok content
    | some _ => .error ⟨.isDirectory, p⟩
    | none => .error ⟨.notFound, p⟩

/-- Why a file cannot be read as a text. -/
inductive TextError
  | file (e : FileError)
  | encoding (fault : Utf8.Fault)
deriving DecidableEq, Repr

/-- The text of the file that a path leads to, with its line breaks as line feeds. -/
def readText (t : FileTree) (p : Path) : Except TextError Text :=
  match t.readBytes p with
  | .error e => .error (.file e)
  | .ok bytes =>
    match Utf8.decode bytes with
    | .error fault => .error (.encoding fault)
    | .ok s => .ok (Text.normalizeLines s)

/-- The tree after the file at a path got new content; the directory around it has to be there. -/
def writeBytes (t : FileTree) (p : Path) (content : List UInt8) : Except FileError FileTree :=
  match t.walk true p with
  | .error e => .error e
  | .ok l =>
    match t.lookup l with
    | some .directory => .error ⟨.isDirectory, p⟩
    | _ => .ok (t.insert l (.file content))

/-- The tree after a text was written to a path. -/
def writeText (t : FileTree) (p : Path) (s : Text) : Except FileError FileTree :=
  t.writeBytes p (Utf8.encode s)

/-- The tree with a new directory; nothing may stand there, and the directory around it has to be
there. -/
def makeDirectory (t : FileTree) (p : Path) : Except FileError FileTree :=
  match t.walk false p with
  | .error e => .error e
  | .ok l =>
    if (t.lookup l).isSome then .error ⟨.exists_, p⟩ else .ok (t.insert l .directory)

/-- The tree with a directory at a path, which may be there already. -/
def ensureDirectory (t : FileTree) (p : Path) : Except FileError FileTree :=
  match t.makeDirectory p with
  | .ok t => .ok t
  | .error e => if e.fault ≠ .notFound && t.isDirectory p then .ok t else .error e

/-- Make a directory and the missing ones around it; the parts of the path are given innermost
first. The directories that were made before a fault stay. -/
def ensureDirectoriesFrom (root : Text) (t : FileTree) : List Text → FileTree × Option FileError
  | [] =>
    match t.ensureDirectory ⟨root, []⟩ with
    | .ok t => (t, none)
    | .error e => (t, some e)
  | name :: outer =>
    let p : Path := ⟨root, (name :: outer).reverse⟩
    match t.ensureDirectory p with
    | .ok t => (t, none)
    | .error e =>
      if e.fault = .notFound then
        match ensureDirectoriesFrom root t outer with
        | (t, some e) => (t, some e)
        | (t, none) =>
          match t.ensureDirectory p with
          | .ok t => (t, none)
          | .error e => (t, some e)
      else (t, some e)

/-- Make the directory at a path and the missing ones around it. -/
def ensureDirectories (t : FileTree) (p : Path) : FileTree × Option FileError :=
  ensureDirectoriesFrom p.root t p.parts.reverse

end FileTree

end YulPlus
