import YulPlus.Artifact.Basic
import YulPlus.FileTree.Basic

/-!
# Artifact stores

A store writes every artifact below its directory: the path of the source, taken as a directory, and
in it a file named by the contract. Directories are made as they are needed. A store knows the paths
that it has written, in order.
-/

namespace YulPlus

/-- A directory for artifacts and the paths that were written into it. -/
structure ArtifactStore where
  directory : Path
  written : List Path := []
deriving DecidableEq, Repr

namespace Artifact

/-- Write an artifact to a path. Directories made on the way stay also if writing fails. -/
def write (a : Artifact) (t : FileTree) (p : Path) : FileTree × Option FileError :=
  match t.ensureDirectories p.parent with
  | (t, some e) => (t, some e)
  | (t, none) =>
    match t.writeText p a.serialize with
    | .ok t => (t, none)
    | .error e => (t, some e)

/-- Why an artifact cannot be read from a path. -/
inductive ReadError
  | text (e : FileTree.TextError)
  | artifact (fault : ArtifactFault)
deriving DecidableEq, Repr

/-- Read the artifact at a path with a limit for the digits of an integer. -/
def readWithin (limit : Option Nat) (t : FileTree) (p : Path) : Except ReadError Artifact :=
  match t.readText p with
  | .error e => .error (.text e)
  | .ok s =>
    match deserializeWithin limit s with
    | .error fault => .error (.artifact fault)
    | .ok a => .ok a

/-- Read the artifact at a path. -/
def readFrom (t : FileTree) (p : Path) : Except ReadError Artifact :=
  readWithin (some Decimal.maxDigits) t p

end Artifact

namespace ArtifactStore

/-- The path of an artifact. -/
def path (store : ArtifactStore) (a : Artifact) : Path :=
  (store.directory.joinText a.sourceName).joinText (a.contractName ++ ".json".toList)

/-- Write an artifact; its path counts as written only if nothing fails. -/
def record (store : ArtifactStore) (t : FileTree) (a : Artifact) :
    ArtifactStore × FileTree × Option FileError :=
  match a.write t (store.path a) with
  | (t, none) => ({ store with written := store.written ++ [store.path a] }, t, none)
  | (t, some e) => (store, t, some e)

end ArtifactStore

end YulPlus
