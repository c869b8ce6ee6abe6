import ResourceCompiler.Resource.Invalid
import ResourceCompiler.Text.Fields

/-!
# Names

The names that a pass deals in. Each type holds the text together with the evidence that the text
is well formed, so that what is built from a name needs no further check.

## Main definitions

* `isIdentifier`: an ASCII letter or underscore, followed by ASCII letters, digits, underscores.
* `Key`, `SourceSetName`, `PackageName`, `ClassName`: the names, and `ofText?` to read each.
* `PackageName.flat`: a package as part of a file name.
-/

namespace ResourceCompiler

/-- Whether a character is a letter of ASCII. -/
def isLetter (c : Char) : Bool := c.isAlpha

/-- Whether a character can stand inside an identifier. -/
def isIdentifierChar (c : Char) : Bool := c.isAlphanum || c == '_'

/-- A letter of ASCII or an underscore, followed by letters, digits of ASCII and underscores. -/
def isIdentifier : List Char → Bool
  | [] => false
  | c :: rest => (isLetter c || c == '_') && rest.all isIdentifierChar

theorem isIdentifier_all {cs : List Char} (h : isIdentifier cs = true) :
    cs.all isIdentifierChar = true := by
  cases cs with
  | nil => rfl
  | cons c rest =>
    simp only [isIdentifier, isLetter, Bool.and_eq_true, Bool.or_eq_true] at h
    simp only [List.all_cons, Bool.and_eq_true, isIdentifierChar, Bool.or_eq_true, Char.isAlphanum]
    exact ⟨h.1.elim (fun h => .inl (.inl h)) .inr, h.2⟩

theorem isIdentifier_ne_nil {cs : List Char} (h : isIdentifier cs = true) : cs ≠ [] := by
  rintro rfl; simp [isIdentifier] at h

/-! ### Resource keys -/

/-- The name of a resource entry. -/
structure Key where
  text : String
  isIdentifier : isIdentifier text.toList = true
deriving DecidableEq

namespace Key

/-- Reads a key. -/
def ofText? (s : String) : Except InvalidValue Key :=
  if h : ResourceCompiler.isIdentifier s.toList = true then .ok ⟨s, h⟩
  else .error (.resourceKey s)

/-- Whether the key has no upper case letter. -/
def isLowercase (k : Key) : Bool := !k.text.toList.any Char.isUpper

instance : ToString Key := ⟨Key.text⟩

@[ext] theorem ext {j k : Key} (h : j.text = k.text) : j = k := by
  cases j; cases k; simp_all

theorem ofText?_text (k : Key) : ofText? k.text = .ok k := by simp [ofText?, k.isIdentifier]

theorem ofText?_eq_ok_iff {s : String} {k : Key} : ofText? s = .ok k ↔ k.text = s := by
  constructor
  · intro h
    unfold ofText? at h
    split at h
    · cases h; rfl
    · cases h
  · rintro rfl; exact ofText?_text k

end Key

/-! ### Source sets -/

/-- A non-empty text of ASCII letters, digits, underscores and hyphens. -/
def isSourceSetName (cs : List Char) : Bool :=
  !cs.isEmpty && cs.all fun c => c.isAlphanum || c == '_' || c == '-'

/-- The name of a set of resource files. -/
structure SourceSetName where
  text : String
  wellFormed : isSourceSetName text.toList = true
deriving DecidableEq

namespace SourceSetName

/-- Reads a source set name. -/
def ofText? (s : String) : Except InvalidValue SourceSetName :=
  if h : isSourceSetName s.toList = true then .ok ⟨s, h⟩ else .error (.sourceSetName s)

instance : ToString SourceSetName := ⟨SourceSetName.text⟩

theorem ofText?_text (n : SourceSetName) : ofText? n.text = .ok n := by
  simp [ofText?, n.wellFormed]

end SourceSetName

/-! ### The holder of the generated resources -/

/-- Identifiers with dots between them. -/
def isPackageName (cs : List Char) : Bool := (Text.fields '.' cs).all isIdentifier

/-- The package of the generated resource holder. -/
structure PackageName where
  text : String
  wellFormed : isPackageName text.toList = true
deriving DecidableEq

namespace PackageName

/-- Reads a package name. -/
def ofText? (s : String) : Except InvalidValue PackageName :=
  if h : isPackageName s.toList = true then .ok ⟨s, h⟩ else .error (.packageName s)

/-- The package without its dots. -/
def flat (p : PackageName) : String := String.ofList (p.text.toList.filter (· ≠ '.'))

instance : ToString PackageName := ⟨PackageName.text⟩

theorem ofText?_text (p : PackageName) : ofText? p.text = .ok p := by
  simp [ofText?, p.wellFormed]

end PackageName

/-- The class of the generated resource holder. -/
structure ClassName where
  text : String
  isIdentifier : isIdentifier text.toList = true
deriving DecidableEq

namespace ClassName

/-- Reads a class name. -/
def ofText? (s : String) : Except InvalidValue ClassName :=
  if h : ResourceCompiler.isIdentifier s.toList = true then .ok ⟨s, h⟩
  else .error (.className s)

/-- The class name used when none is configured. -/
def default : ClassName := ⟨"MR", by decide⟩

instance : ToString ClassName := ⟨ClassName.text⟩

end ClassName

end ResourceCompiler
