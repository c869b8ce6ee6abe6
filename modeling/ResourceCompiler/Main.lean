import ResourceCompiler.Command.Execution
import ResourceCompiler.FileTree.Access
import ResourceCompiler.FileTree.Change

/-!
# Command line

The program works on the files below the working directory, which is also what a slash at the start
of a path means to it. It reads them, runs the command on the tree, and makes the changes. Links to
directories are not followed.
-/

namespace ResourceCompiler.WorkingDirectory

open IO.FS (readBinFile writeBinFile)

/-- The path that leads to a location from the working directory. -/
def pathTo (l : Location) : String := "/".intercalate l

/-- A tree with a further node, if it can have one at that place. -/
def attach (t : FileTree) (l : Location) (n : Node) : FileTree :=
  let path : Path := ⟨pathTo l⟩
  let attached := match n with
    | .directory => t.createDirectory path
    | .file content => t.write path content
  match attached with
  | .ok t => t
  | .error _ => t

/-- Reads what lies below a directory into a tree. What cannot be read is left out. -/
partial def readBelow (directory : Location) (t : FileTree) : IO FileTree := do
  let place ← IO.FS.realPath (if directory.isEmpty then "." else pathTo directory)
  let mut t := t
  for entry in ← place.readDir do
    let l := directory ++ [entry.fileName]
    try
      match (← entry.path.symlinkMetadata).type, (← entry.path.metadata).type with
      | .dir, _ => t ← readBelow l (attach t l .directory)
      | _, .file => t := attach t l (.file (← readBinFile entry.path))
      | _, _ => pure ()
    catch _ => pure ()
  return t

/-- Makes a change below the working directory. -/
def perform : FileTree.Change → IO Unit
  | .removeFile l => IO.FS.removeFile (pathTo l)
  | .removeDirectory l => IO.FS.removeDir (pathTo l)
  | .createDirectory l => IO.FS.createDir (pathTo l)
  | .writeFile l content => writeBinFile (pathTo l) content

/-- Carries out an invocation. -/
def carryOut (i : Invocation) : IO UInt32 := do
  let environment := (← IO.getEnv "POLYRES_CONFIG").map Path.mk
  let before ← readBelow [] .empty
  let (report, after) := i.command.run environment before
  (FileTree.changes before after).forM perform
  let verbosity := Verbosity.ofFlags i.common.quiet i.common.debug
  IO.print (report.output verbosity)
  IO.eprint (report.errors verbosity)
  return report.exitCode.toUInt32

end ResourceCompiler.WorkingDirectory

/-- Reads the arguments and does what they ask for. -/
def main (args : List String) : IO UInt32 :=
  match ResourceCompiler.Invocation.ofArguments args with
  | .error refusal => return refusal.exitCode.toUInt32
  | .ok invocation => ResourceCompiler.WorkingDirectory.carryOut invocation
