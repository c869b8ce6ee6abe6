import ResourceCompiler.FileTree.Action

/-!
# Output paths

A pass owns three directories and one file. They are cleared before anything is written, so that
they only ever hold what the current inputs give.

## Main definitions

* `OutputPaths`: the places.
* `OutputPaths.under`: the conventional places below a root.
* `OutputPaths.clear`: empties them.
* `OutputPaths.hasNativeOutput`: whether one of the directories holds something.
-/

namespace ResourceCompiler

/-- Where the output of a pass goes. -/
structure OutputPaths where
  resources : Path
  assets : Path
  sources : Path
  metadata : Path
deriving DecidableEq

namespace OutputPaths

/-- The conventional places below a root. -/
def under (root : Path) : OutputPaths :=
  ⟨root / "res", root / "assets", root / "src", root / "metadata.json"⟩

/-- The directories, in a fixed order. -/
def directories (o : OutputPaths) : List Path := [o.resources, o.assets, o.sources]

/-- Removes all output and makes the directories again. The metadata go last. -/
def clear (o : OutputPaths) : FileAction FileError Unit := do
  let _ ← FileAction.each (fun d => do removeAll d; createDirectories d) o.directories
  removeAll o.metadata

/-- Whether one of the directories holds something. -/
def hasNativeOutput (o : OutputPaths) (t : FileTree) : Bool :=
  o.directories.any fun d => !(t.list d).isEmpty

end OutputPaths

end ResourceCompiler
