import YulPlus.Text.Basic

/-!
# Paths

A path is a root and the names below it. The root is empty for a relative path; an absolute one
begins with a slash, or with exactly two, which are kept apart. Empty names and single dots
disappear when a text is read as a path, and double dots stay: only a file tree can tell where they
lead.
-/

namespace YulPlus

open Text

/-- A path, absolute or relative. -/
structure Path where
  root : Text := []
  parts : List Text := []
deriving DecidableEq, Repr, Inhabited

namespace Path

/-- The pieces of a text between slashes. -/
def pieces : Text → List Text
  | [] => [[]]
  | c :: rest =>
    if c = '/' then [] :: pieces rest
    else
      match pieces rest with
      | [] => [[c]]
      | piece :: more => (c :: piece) :: more

/-- The names in a text. -/
def names (s : Text) : List Text :=
  (pieces s).filter fun piece => !(piece.isEmpty || piece = ['.'])

/-- The root that a text begins with. -/
def rootOf (s : Text) : Text :=
  match s.takeWhile (· = '/') with
  | [] => []
  | ['/', '/'] => ['/', '/']
  | _ => ['/']

/-- Read a text as a path. -/
def ofText (s : Text) : Path :=
  ⟨rootOf s, names s⟩

/-- The absolute path of a place in a file tree. -/
def ofLocation (location : List Text) : Path :=
  ⟨['/'], location⟩

/-- The text of a path; a path without any part is a single dot. -/
def text (p : Path) : Text :=
  if p.root.isEmpty && p.parts.isEmpty then ['.'] else p.root ++ joinWith ['/'] p.parts

/-- A path seen from another one: below it if it is relative, itself if it is absolute. -/
def join (base p : Path) : Path :=
  if p.root.isEmpty then ⟨base.root, base.parts ++ p.parts⟩ else p

/-- A text seen from a path. -/
def joinText (base : Path) (s : Text) : Path :=
  base.join (ofText s)

/-- The path without its last part. -/
def parent (p : Path) : Path :=
  ⟨p.root, p.parts.dropLast⟩

/-- The last part, empty for a root. -/
def name (p : Path) : Text :=
  p.parts.getLastD []

/-- Compare two texts by their code points. -/
def textLE : Text → Text → Bool
  | [], _ => true
  | _ :: _, [] => false
  | c :: s, d :: t => if c = d then textLE s t else c.toNat < d.toNat

/-- Compare two lists of names, name by name. -/
def partsLE : List Text → List Text → Bool
  | [], _ => true
  | _ :: _, [] => false
  | s :: ss, t :: ts => if s = t then partsLE ss ts else textLE s t

end Path

/-- The name of the contract in a file: the last part of its path up to the first dot. -/
def contractName (sourceName : Text) : Text :=
  (Path.ofText sourceName).name.takeWhile (· ≠ '.')

end YulPlus
