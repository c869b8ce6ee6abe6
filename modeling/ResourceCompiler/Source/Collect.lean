import ResourceCompiler.Config.Configuration
import ResourceCompiler.FileTree.Access

/-!
# Finding resource files

The resource files of a kind are known by their paths below the root of a source set. All that lies
below the root is gone through; a source set without root has no files.

## Main definitions

* `Source.selects`: whether a path is that of a file of a kind.
* `Source.ScanError`: a directory that cannot be gone through.
* `Source.precedes`: the order in which files are found.
* `Source.scan`: the files below the root of a source set, in this order.
* `Source.Collected`, `Source.collect`: the files of every kind of a source set.
-/

namespace ResourceCompiler.Source

/-- Whether a name starts with a word and, behind it, ends with `.xml`. -/
def isDocumentName (word name : List Char) : Bool :=
  word.isPrefixOf name && ".xml".toList.isSuffixOf (name.drop word.length)

/-- The endings of the names of image files. -/
def imageEndings : List (List Char) :=
  [".png".toList, ".jpg".toList, ".jpeg".toList, ".svg".toList]

/-- Whether the parts of a path, below the root of a source set, are those of a file of a kind.
Documents are known by their names, in any directory; images by their endings, below a directory
`images`. -/
def selects (k : Kind) (parts : List (List Char)) : Bool :=
  match parts.getLast? with
  | none => false
  | some name =>
    match k with
    | .images =>
      parts.head? == some "images".toList && 1 < parts.length
        && imageEndings.any fun e => e.isSuffixOf name
    | k => isDocumentName k.text.toList name

/-- A directory of a source set that cannot be gone through. -/
structure ScanError where
  sourceSet : SourceSetName
  directory : Path
  error : FileError
deriving DecidableEq

/-- The wording of a fault. -/
def ScanError.message (e : ScanError) : String :=
  "failed to scan resources of source set '" ++ e.sourceSet.text
    ++ "': IO error for operation on " ++ e.directory.text ++ ": " ++ e.error.message

/-- The path of a location below the root of a source set. -/
def pathBelow (s : SourceSet) (l : Location) : Path := s.root.join ⟨"/".intercalate l⟩

/-- What a directory or file adds to the files that are found. A directory whose path has become too
long cannot be gone through. -/
def visit (s : SourceSet) (e : Location × Node) : Except ScanError (Option Location) :=
  match e.2 with
  | .file _ => .ok (some e.1)
  | .directory =>
    match (pathBelow s e.1).check with
    | .ok () => .ok none
    | .error error => .error ⟨s.name, pathBelow s e.1, error⟩

/-- Whether a list comes no later than another one: the first items that differ decide, and the end
of a list comes before any item. -/
def precedes {α : Type} [DecidableEq α] (before : α → α → Bool) : List α → List α → Bool
  | [], _ => true
  | _ :: _, [] => false
  | a :: as, b :: bs => if a = b then precedes before as bs else before a b

/-- Whether a name comes no later than another one, by code points. -/
def namePrecedes (a b : String) : Bool :=
  precedes (fun c d => decide (c.toNat < d.toNat)) a.toList b.toList

/-- The files below the root of a source set, by what leads to them from there, in the order of
their names on the way. -/
def scan (s : SourceSet) (t : FileTree) : Except ScanError (List Location) := do
  let visited ← ((t.list s.root).mergeSort fun a b => precedes namePrecedes a.1 b.1).mapM (visit s)
  return visited.filterMap id

/-- The files of every kind of a source set. -/
structure Collected where
  sourceSet : SourceSet
  files : Kind → List Path

/-- Those files of a source set that are of a kind. -/
def filesOf (k : Kind) (s : SourceSet) (found : List Location) : List Path :=
  (found.filter fun l => selects k (l.map String.toList)).map (pathBelow s)

/-- The files of source sets, in the order of these. -/
def collect (sets : List SourceSet) (t : FileTree) : Except ScanError (List Collected) :=
  sets.mapM fun s => do
    let found ← scan s t
    return ⟨s, fun k => filesOf k s found⟩

end ResourceCompiler.Source
