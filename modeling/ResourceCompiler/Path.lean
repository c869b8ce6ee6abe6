import ResourceCompiler.Text.Fields

/-!
# Paths

A path is the text that names a place among files, with parts divided by slashes. The text is kept
as it was given, since it is shown and opened as it stands; two paths are the same place by name
when their components agree.

## Main definitions

* `Path.components`: the parts of a path, without empty ones and inner dots.
* `Path.same`: agreement by component.
* `Path.join`, `Path.parent?`, `Path.fileName?`, `Path.withExtension`: going down, going up, and
  the name at the end.
* `Path.stem?`, `Path.extension?`: the name at the end divided at its last dot.

## Main statements

* `join_of_isAbsolute`: joining with an absolute path replaces.
* `isAbsolute_join_of_left`: what is joined to an absolute path is absolute.
-/

namespace ResourceCompiler

/-- A path, as it was written. -/
structure Path where
  text : String
deriving DecidableEq, Inhabited

namespace Path

/-- A part of a path. -/
inductive Component where
  /-- The slash that an absolute path starts with. -/
  | root
  /-- A dot that a relative path starts with. -/
  | current
  /-- Two dots. -/
  | parent
  | name (name : String)
deriving DecidableEq

/-- Whether the path starts at the root. -/
def isAbsolute (p : Path) : Bool := p.text.toList.head? == some '/'

/-- The texts between the slashes. -/
def segments (p : Path) : List (List Char) := Text.fields '/' p.text.toList

/-- Whether a segment behind the first one names nothing. -/
def isIdle (segment : List Char) : Bool := segment == [] || segment == ['.']

/-- The component that a segment which names something stands for. -/
def Component.ofSegment (segment : List Char) : Component :=
  if segment = ['.', '.'] then .parent else .name (String.ofList segment)

/-- The components of the segments behind the first one. -/
def innerComponents (segments : List (List Char)) : List Component :=
  (segments.filter fun s => !isIdle s).map Component.ofSegment

/-- The parts of a path. Repeated slashes, dots inside and slashes at the end do not count; a dot
at the start of a relative path does. -/
def components (p : Path) : List Component :=
  match p.segments with
  | [] => []
  | [[]] => []
  | [] :: rest => .root :: innerComponents rest
  | ['.'] :: rest => .current :: innerComponents rest
  | first :: rest => innerComponents (first :: rest)

/-- Whether two paths agree component by component. -/
def same (p q : Path) : Bool := p.components == q.components

/-- The path `q`, read from the place `p`. -/
def join (p q : Path) : Path :=
  if q.isAbsolute then q
  else if p.text.toList = [] ∨ p.text.toList.getLast? = some '/' then ⟨p.text ++ q.text⟩
  else ⟨p.text ++ "/" ++ q.text⟩

/-- `p / name` is the path of a name below `p`. -/
instance : HDiv Path String Path := ⟨fun p name => p.join ⟨name⟩⟩

/-- The segments divided into the start that a path keeps to the last and the rest: an absolute
path starts at the slash, a relative one may start with a dot. -/
def start (segments : List (List Char)) : List (List Char) × List (List Char) :=
  match segments with
  | [[]] => ([], [])
  | [] :: rest => ([[]], rest)
  | ['.'] :: rest => ([['.']], rest)
  | all => ([], all)

/-- The segments in reverse, from the last one that names something. -/
def lastFirst (segments : List (List Char)) : List (List Char) :=
  segments.reverse.dropWhile isIdle

/-- The text of a start with nothing behind it. -/
def startText (start : List (List Char)) : List Char :=
  match start with
  | [[]] => ['/']
  | [['.']] => ['.']
  | _ => []

/-- The path without its last component; the root and the empty path have none. -/
def parent? (p : Path) : Option Path :=
  let (first, rest) := start p.segments
  match lastFirst rest with
  | [] => if first = [['.']] then some ⟨""⟩ else none
  | _ :: before =>
    match before.dropWhile isIdle with
    | [] => some ⟨String.ofList (startText first)⟩
    | kept => some ⟨String.ofList (Text.joined '/' (first ++ kept.reverse))⟩

/-- The name at the end of the path, if its last component is a name. -/
def fileName? (p : Path) : Option String :=
  match lastFirst (start p.segments).2 with
  | [] => none
  | last :: _ => if last = ['.', '.'] then none else some (String.ofList last)

/-- A file name divided at its last dot into stem and extension. A name whose only dot is at the
start has no extension. -/
def divideName (name : List Char) : List Char × Option (List Char) :=
  match name.reverse.span (· ≠ '.') with
  | (_, []) => (name, none)
  | (_, [_]) => (name, none)
  | (ext, _ :: stem) => (stem.reverse, some ext.reverse)

/-- The file name without its extension. -/
def stem? (p : Path) : Option String :=
  p.fileName?.map fun name => String.ofList (divideName name.toList).1

/-- The extension of the file name. -/
def extension? (p : Path) : Option String :=
  p.fileName?.bind fun name => (divideName name.toList).2.map String.ofList

/-- The path with the extension of its file name replaced, and what is behind the name left out; a
path without file name stays. -/
def replaceExtension (p : Path) (extension : String) : Path :=
  let (first, rest) := start p.segments
  match lastFirst rest with
  | [] => p
  | last :: before =>
    if last = ['.', '.'] then p
    else
      let name := (divideName last).1 ++ '.' :: extension.toList
      ⟨String.ofList (Text.joined '/' (first ++ before.reverse ++ [name]))⟩

/-- The path without as many characters at its end as the extension of its file name has. -/
def withoutExtension (p : Path) : Path :=
  let count := (p.extension?.map String.length).getD 0
  ⟨String.ofList (p.text.toList.take (p.text.toList.length - count))⟩

/-- The path with another extension of its file name. The old extension is cut off first; when two
dots are left as the name, the path is that of a directory and stays. -/
def withExtension (p : Path) (extension : String) : Path :=
  p.withoutExtension.replaceExtension extension

/-! ### Joining -/

theorem join_of_isAbsolute (p : Path) {q : Path} (h : q.isAbsolute = true) : p.join q = q := by
  simp [join, h]

/-- The empty path is the place where reading starts. -/
theorem empty_join (q : Path) : join ⟨""⟩ q = q := by
  unfold join
  split
  · rfl
  · simp

theorem isAbsolute_join_of_left {p : Path} (h : p.isAbsolute = true) (q : Path) :
    (p.join q).isAbsolute = true := by
  obtain ⟨r, hr⟩ : ∃ r, p.text.toList = '/' :: r := by
    cases hp : p.text.toList with
    | nil => simp [isAbsolute, hp] at h
    | cons c r => simp [isAbsolute, hp] at h; exact ⟨r, by rw [h]⟩
  unfold join
  split
  · assumption
  · split <;> simp [isAbsolute, hr]

end Path

end ResourceCompiler
