import ResourceCompiler.FileTree.Basic
import ResourceCompiler.Path

/-!
# Access by path

A path is followed step by step from the root, which is also where relative paths start. Each step
needs a directory to start from. The faults are those that the operating system reports for the same
request, in its wording.

## Main definitions

* `FileError`: the faults.
* `Path.steps`, `Path.location`: what a path asks for, and where it leads by its text alone.
* `Path.check`: what every request asks of a path.
* `FileTree.locate`: where a path leads in a tree.
* `FileTree.stat`, `FileTree.isFile`, `FileTree.isDirectory`, `FileTree.read`, `FileTree.readText`.
* `FileTree.createDirectory`, `FileTree.truncate`, `FileTree.write`, `FileTree.removeFile`,
  `FileTree.removeDirectory`, `FileTree.rename`: single requests that change the tree.
-/

namespace ResourceCompiler

/-- The faults of requests to the file system. -/
inductive FileError where
  | notFound
  | busy
  | alreadyExists
  | notADirectory
  | isADirectory
  | invalidArgument
  | nameTooLong
  | notEmpty
  /-- A path holds the character that ends texts for the operating system. -/
  | nulCharacter
  /-- The content of a file is not text. -/
  | notText
deriving DecidableEq

/-- The wording of a fault. -/
def FileError.message : FileError → String
  | .notFound => "No such file or directory (os error 2)"
  | .busy => "Device or resource busy (os error 16)"
  | .alreadyExists => "File exists (os error 17)"
  | .notADirectory => "Not a directory (os error 20)"
  | .isADirectory => "Is a directory (os error 21)"
  | .invalidArgument => "Invalid argument (os error 22)"
  | .nameTooLong => "File name too long (os error 36)"
  | .notEmpty => "Directory not empty (os error 39)"
  | .nulCharacter => "file name contained an unexpected NUL byte"
  | .notText => "stream did not contain valid UTF-8"

namespace Path

/-- One step along a path. -/
inductive Step where
  | stay
  | up
  | down (name : String)
deriving DecidableEq

/-- The step that a text between slashes asks for. -/
def Step.ofSegment (segment : List Char) : Step :=
  if segment = [] ∨ segment = ['.'] then .stay
  else if segment = ['.', '.'] then .up
  else .down (String.ofList segment)

/-- The location that a step leads to. -/
def Step.from (l : Location) : Step → Location
  | .stay => l
  | .up => l.dropLast
  | .down name => l ++ [name]

/-- The steps along a path. -/
def steps (p : Path) : List Step := p.segments.map Step.ofSegment

/-- The largest number of bytes in a name. -/
def maxNameBytes : Nat := 255

/-- The largest number of bytes in a path. -/
def maxBytes : Nat := 4095

/-- Whether a step asks for a name that is too long for any file. -/
def Step.isTooLong : Step → Bool
  | .down name => maxNameBytes < name.utf8ByteSize
  | _ => false

/-- Where a path leads by its text alone. -/
def location (p : Path) : Location := p.steps.foldl Step.from []

/-- Whether the path ends with a slash. -/
def endsWithSlash (p : Path) : Bool := p.text.toList.getLast? == some '/'

/-- The path without slashes at its end. -/
def withoutFinalSlashes (p : Path) : Path :=
  ⟨String.ofList (p.text.toList.reverse.dropWhile (· = '/')).reverse⟩

/-- The last step along a path, not counting slashes at its end. -/
def lastStep (p : Path) : Step := (p.withoutFinalSlashes.steps.getLast?).getD .stay

/-- What every request asks of a path before it is followed. -/
def check (p : Path) : Except FileError Unit :=
  if '\x00' ∈ p.text.toList then .error .nulCharacter
  else if maxBytes < p.text.utf8ByteSize then .error .nameTooLong
  else if p.text = "" then .error .notFound
  else .ok ()

end Path

namespace FileTree

/-- Follows steps from a location. Each one starts from a directory. -/
def walk (t : FileTree) : Location → List Path.Step → Except FileError Location
  | l, [] => .ok l
  | l, s :: rest =>
    match t.get? l with
    | none => .error .notFound
    | some (.file _) => .error .notADirectory
    | some .directory => if s.isTooLong then .error .nameTooLong else walk t (s.from l) rest

/-- A walk that arrives does so where the steps lead by themselves. -/
theorem walk_eq_ok {t : FileTree} {l k : Location} {steps : List Path.Step}
    (h : t.walk l steps = .ok k) : k = steps.foldl Path.Step.from l := by
  induction steps generalizing l with
  | nil => simp [walk] at h; exact h.symm
  | cons s rest ih =>
    rw [walk] at h
    split at h
    · cases h
    · cases h
    · split at h
      · cases h
      · exact ih h

/-- Where a path leads. The last step may lead to nothing; the empty path leads nowhere. -/
def locate (t : FileTree) (p : Path) : Except FileError Location := do
  p.check
  t.walk [] p.steps

theorem locate_eq_ok {t : FileTree} {p : Path} {l : Location} (h : t.locate p = .ok l) :
    l = p.location := by
  unfold locate at h
  cases hc : p.check with
  | error e => rw [hc] at h; cases h
  | ok u => rw [hc] at h; exact walk_eq_ok h

/-- Where the name at the end of a path stands or would stand, not counting slashes behind it. -/
def locateName (t : FileTree) (p : Path) : Except FileError Location := do
  p.check
  t.walk [] p.withoutFinalSlashes.steps

/-- The directory that the last step along a path starts from. -/
def locateHolder (t : FileTree) (p : Path) : Except FileError Location := do
  p.check
  t.walk [] (p.withoutFinalSlashes.steps.dropLast ++ [.stay])

/-! ### Looking -/

/-- The node that a path leads to. -/
def stat (t : FileTree) (p : Path) : Except FileError Node := do
  match t.get? (← t.locate p) with
  | none => throw .notFound
  | some n => return n

/-- Whether a path leads to a file. -/
def isFile (t : FileTree) (p : Path) : Bool :=
  match t.stat p with
  | .ok (.file _) => true
  | _ => false

/-- Whether a path leads to a directory. -/
def isDirectory (t : FileTree) (p : Path) : Bool :=
  match t.stat p with
  | .ok .directory => true
  | _ => false

/-- The content of a file. -/
def read (t : FileTree) (p : Path) : Except FileError ByteArray := do
  match ← t.stat p with
  | .file content => return content
  | .directory => throw .isADirectory

/-- The content of a file as text. -/
def readText (t : FileTree) (p : Path) : Except FileError String := do
  match String.fromUTF8? (← t.read p) with
  | some s => return s
  | none => throw .notText

/-- The directories and files below a path, by what leads to them from there; none if the path does
not lead to a directory. -/
def list (t : FileTree) (p : Path) : List (Location × Node) :=
  match t.locate p with
  | .ok l => if t.get? l = some .directory then t.below l else []
  | .error _ => []

/-! ### Changing -/

/-- A new directory. -/
def createDirectory (t : FileTree) (p : Path) : Except FileError FileTree := do
  let l ← t.locateName p
  if vacant : t.get? l = none then
    if holder : t.get? l.dropLast = some .directory then
      return t.insert l .directory holder (by simp [vacant])
    else throw .notFound
  else throw .alreadyExists

/-- Where a file can be written. -/
def locateFile (t : FileTree) (p : Path) : Except FileError Location :=
  if p.endsWithSlash then do
    let _ ← t.locateHolder p
    throw .isADirectory
  else t.locate p

/-- A file with the given content, new or in the place of a file. -/
def write (t : FileTree) (p : Path) (content : ByteArray) : Except FileError FileTree := do
  let l ← t.locateFile p
  if vacant : t.get? l ≠ some .directory then
    if holder : t.get? l.dropLast = some .directory then
      return t.insert l (.file content) holder vacant
    else throw .notFound
  else throw .isADirectory

/-- An empty file, new or in the place of a file. -/
def truncate (t : FileTree) (p : Path) : Except FileError FileTree := t.write p .empty

/-- The tree without a file. -/
def removeFile (t : FileTree) (p : Path) : Except FileError FileTree := do
  match ← t.stat p with
  | .file _ => return t.prune p.location
  | .directory => throw .isADirectory

/-- The tree without an empty directory. Dots do not name a directory so that it can be removed. -/
def removeDirectory (t : FileTree) (p : Path) : Except FileError FileTree := do
  let _ ← t.locateHolder p
  match p.lastStep with
  | .stay => throw .invalidArgument
  | .up => throw .notEmpty
  | .down _ =>
    let l ← t.locateName p
    match t.get? l with
    | none => throw .notFound
    | some (.file _) => throw .notADirectory
    | some .directory => if (t.below l).isEmpty then return t.prune l else throw .notEmpty

/-- A file moved to another place, where it takes the place of a file. Dots do not name a place. -/
def rename (t : FileTree) (source target : Path) : Except FileError FileTree := do
  let content ← t.read source
  let _ ← t.locateHolder target
  match target.lastStep with
  | .down _ =>
    let l ← t.locateName target
    if target.endsWithSlash then throw .notADirectory
    if l = source.location then return t
    (t.prune source.location).write target content
  | _ => throw .busy

end FileTree

end ResourceCompiler
