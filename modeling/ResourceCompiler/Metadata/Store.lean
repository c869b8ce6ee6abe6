import ResourceCompiler.FileTree.Action
import ResourceCompiler.Metadata.Artifact

/-!
# Keeping artifacts in files

An artifact is written to a file beside its place and moved there when it is complete, so that a
reader finds either what was there before or the whole artifact.

## Main definitions

* `StoreError`: what can go wrong.
* `Store.temporary`: the file beside a place.
* `Store.requests`: the requests that put a content into its place, in order.
* `Store.write`, `Store.read`, `Store.readAll`: artifacts to and from files.
-/

namespace ResourceCompiler

/-- What can go wrong with an artifact in a file. -/
inductive StoreError where
  | unreadable (path : Path) (error : FileError)
  | unwritable (path : Path) (error : FileError)
  | unusable (path : Path) (error : MetadataError)
deriving DecidableEq

/-- The wording of a fault. -/
def StoreError.message : StoreError → String
  | .unreadable path error =>
    "failed to read metadata artifact '" ++ path.text ++ "': " ++ error.message
  | .unwritable path error =>
    "failed to write metadata artifact '" ++ path.text ++ "': " ++ error.message
  | .unusable path error =>
    "metadata artifact '" ++ path.text ++ "' is unusable: " ++ error.message

namespace Store

/-- The file beside a place in which a content is completed. -/
def temporary (path : Path) : Path := path.withExtension "json.tmp"

/-- The requests that put a content into its place, each with the path that a failure is reported
for. -/
def requests (path : Path) (content : ByteArray) : List (Path × FileAction FileError Unit) :=
  [(path, createHolders path),
   (temporary path, .change fun t => t.truncate (temporary path)),
   (temporary path, .change fun t => t.write (temporary path) content),
   (path, .change fun t => t.rename (temporary path) path)]

/-- Puts an artifact into a file. -/
def write (path : Path) (a : Artifact) : FileAction StoreError Unit := do
  let _ ← FileAction.each (fun (place, request) => request.mapError (StoreError.unwritable place))
    (requests path a.text.toUTF8)

/-- The artifact in a file. -/
def read (path : Path) (t : FileTree) : Except StoreError Artifact := do
  let text ← (t.readText path).mapError (StoreError.unreadable path)
  (Artifact.ofText? text).mapError (StoreError.unusable path)

/-- The artifacts in files, in the order of the paths. -/
def readAll (paths : List Path) (t : FileTree) : Except StoreError (List Artifact) :=
  paths.mapM fun p => read p t

end Store

end ResourceCompiler
