import YulPlus.CommandLine.Run

/-!
# The program

The program runs on a copy of the disk: everything below the current directory and below the
directory that the task names is loaded, the task is run on it, and then what is new or changed is
written back. No process is started from here, so the host knows no compiler.
-/

namespace YulPlus

namespace Disk

/-- The names on the way to a place, from its text. -/
def locationOf (s : String) : Location :=
  (Path.ofText s.toList).parts

/-- The text of a location. -/
def nameOf (location : Location) : String :=
  String.ofList (Path.ofLocation location).text

/-- Add a directory and all directories around it. -/
def addDirectory (t : FileTree) (location : Location) : FileTree :=
  (t.ensureDirectories (Path.ofLocation location)).1

/-- Add everything below a directory. A link is kept as a link to the place that it leads to in the
end, and left out if it leads nowhere. -/
partial def loadBelow (t : FileTree) (location : Location) : IO FileTree := do
  let directory := (← IO.currentDir) / nameOf location
  let mut tree := t.insert location .directory
  for entry in ← directory.readDir do
    let place := location ++ [entry.fileName.toList]
    match (← entry.path.symlinkMetadata).type with
    | .dir => tree ← loadBelow tree place
    | .file => tree := tree.insert place (.file (← IO.FS.readBinFile entry.path).toList)
    | .symlink =>
      if ← entry.path.pathExists then
        tree := tree.insert place (.link (locationOf (← IO.FS.realPath entry.path).toString))
    | .other => pure ()
  return tree

/-- Add everything below a directory, if it is one. -/
def load (t : FileTree) (location : Location) : IO FileTree := do
  if ← ((← IO.currentDir) / nameOf location).isDir then
    loadBelow (addDirectory t location) location
  else return t

/-- Write the entries of a tree that another one does not have. -/
def save (before after : FileTree) : IO Unit := do
  for (location, entry) in after.entries do
    if before.lookup location ≠ some entry then
      match entry with
      | .directory => IO.FS.createDirAll (nameOf location)
      | .file content => IO.FS.writeBinFile (nameOf location) ⟨content.toArray⟩
      | .link _ => pure ()

end Disk

namespace CommandLine

/-- The directory that an invocation works in. -/
def Invocation.directory? : Invocation → Option Text
  | .perform (.init directory _) => some directory
  | .perform (.compile directory) => some directory
  | _ => none

/-- The world of a run from the command line. -/
def host (colored : Bool) : Host where
  find _ := none
  run _ := .failed ⟨.notFound, []⟩
  colored := colored

end CommandLine

end YulPlus

open YulPlus in
/-- Run the program on the arguments of the command line. -/
def main (arguments : List String) : IO UInt32 := do
  let current := Disk.locationOf (← IO.currentDir).toString
  let invocation := CommandLine.Invocation.ofArguments (arguments.map String.toList)
  let mut tree ← Disk.load {} current
  if let some directory := invocation.directory? then
    tree ← Disk.load tree (tree.resolve ((Path.ofLocation current).joinText directory))
  let colored ← (← IO.getStdout).isTty
  let action := invocation.run (Path.ofLocation current)
  let (outcome, session) := (action (CommandLine.host colored)).run { tree := tree }
  Disk.save tree session.tree
  IO.print (String.ofList session.output)
  IO.eprint (String.ofList session.errors)
  match outcome with
  | .ok status => return status.toUInt32
  | .error cause =>
    IO.eprintln (String.ofList cause.message)
    return 1
