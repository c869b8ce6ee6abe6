import ResourceCompiler.Merge
import ResourceCompiler.Source.ColorTable
import ResourceCompiler.Source.ImageName
import ResourceCompiler.Source.LocalizedText

/-!
# Entries from resource files

## Main definitions

* `Source.build`: the entries of a kind that the files of a source set declare.
-/

namespace ResourceCompiler.Source

/-- The entries of declared values, in the order of the first declaration of each key. -/
def entriesOf {Q V : Type} (k : Kind) (value : OrderedMap Q (V × Path) → Option k.Value)
    (m : Declared Q V) : List (Entry k) :=
  m.entries.filterMap fun e => (value e.2).map fun v => ⟨e.1, v⟩

/-- The entries of a kind that files of a source set declare. -/
def build (strict : Bool) (sourceSet : SourceSetName) (root : Path) (files : List Path)
    (t : FileTree) : (k : Kind) → Except SourceError (List (Entry k))
  | .strings => do
    let m ← gather sourceSet .strings Locale.text
      (textDeclarations .strings (stringOf strict) sourceSet root files t)
    return entriesOf .strings (fun vs => some (withoutPaths vs)) m
  | .plurals => do
    let m ← gather sourceSet .plurals Locale.text
      (textDeclarations .plurals (pluralOf strict) sourceSet root files t)
    return entriesOf .plurals (fun vs => some (withoutPaths vs)) m
  | .images => do
    let m ← gather sourceSet .images Scale.text (imageDeclarations sourceSet files)
    return entriesOf .images (fun vs => some (withoutPaths vs)) m
  | .colors => do
    let m ← gather sourceSet .colors (fun _ => "value") (colorDeclarations sourceSet files t)
    return entriesOf .colors (fun vs => vs.entries.head?.map fun e => e.2.1) m

end ResourceCompiler.Source
