import ResourceCompiler.Resource.Locale
import ResourceCompiler.Source.Declaration

/-!
# Resource documents

What the documents of strings, plurals and colors have in common: a root called `resources` whose
children are entries with a name. The directory of a document of texts tells its locale.

## Main definitions

* `Source.Place`: a file of a kind in a source set.
* `Source.Place.locale`, `Source.Place.resources`, `Source.keyOf`: the locale of a file, the entries
  of its document, and the key of an entry.
* `Source.Place.declarations`: the declarations of a document, one for each entry.
-/

namespace ResourceCompiler.Source

/-- A file that holds resources of a kind for a source set. -/
structure Place where
  sourceSet : SourceSetName
  kind : Kind
  path : Path

namespace Place

/-- A fault inside the file. -/
def malformed (p : Place) (f : Fault) : SourceError := .malformed p.sourceSet p.kind p.path f

/-- The locale of the file: the base directly below the root, otherwise the one that the directory
of the file is named for. -/
def locale (p : Place) (root : Path) : Except SourceError Locale :=
  let parent := p.path.parent?.getD root
  if parent.same root then .ok .base
  else (Locale.ofText? (parent.fileName?.getD "")).mapError fun e => p.malformed (.invalid e)

/-- The entries of the document in the file. -/
def resources (p : Place) (t : FileTree) : Except SourceError (List Xml.Element) := do
  let text ← (t.readText p.path).mapError (SourceError.unreadable p.sourceSet p.path)
  let root ← (Xml.read text).mapError fun e => p.malformed (.xml e)
  if root.name ≠ "resources" then throw (p.malformed (.wrongRoot root.name))
  return root.elements

/-- The declarations of the entries of a document, or the fault that leaves it without entries. -/
def declarations {Q V : Type} (p : Place) (qualifier : Q)
    (value : Xml.Element → Except Fault (Key × V))
    (entries : Except SourceError (List Xml.Element)) :
    List (Except SourceError (Declaration Q V)) :=
  match entries with
  | .error e => [.error e]
  | .ok es => es.map fun e =>
    match value e with
    | .ok (key, v) => .ok ⟨key, qualifier, v, p.path⟩
    | .error f => .error (p.malformed f)

end Place

/-- Checks that an entry has the name that entries of its kind have. -/
def expectElement (expected : String) (e : Xml.Element) : Except Fault Unit :=
  if e.name = expected then .ok () else .error (.unexpectedElement e.name expected)

/-- The key of an entry. -/
def keyOf (e : Xml.Element) : Except Fault Key :=
  match e.attribute? "name" with
  | none => .error (.missingName e.name)
  | some name => (Key.ofText? name).mapError .invalid

end ResourceCompiler.Source
