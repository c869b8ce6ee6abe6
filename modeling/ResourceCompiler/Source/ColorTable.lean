import ResourceCompiler.Resource.Entry
import ResourceCompiler.Source.Document

/-!
# Colors

A color entry holds a color as its text, or the colors of the light and of the dark appearance as
elements.

## Main definitions

* `Source.colorOf`: the key and value of a color entry.
* `Source.colorDeclarations`: the declarations of files of colors.
-/

namespace ResourceCompiler.Source

/-- The color that the text of an element describes. -/
def colorText (key : Key) (text : String) : Except Fault Color :=
  (Color.ofText? (Text.trim text)).mapError (Fault.invalidColor key)

/-- The color of an appearance, in the first element called for it. -/
def themeColor (key : Key) (themes : List Xml.Element) (name : String) : Except Fault Color :=
  match themes.find? fun e => e.name == name with
  | none => .error (.missingTheme key name)
  | some e => colorText key e.text

/-- The value of a color entry. -/
def colorValueOf (key : Key) (e : Xml.Element) : Except Fault ColorValue := do
  match e.elements with
  | [] => return .single (← colorText key e.text)
  | themes =>
    match themes.find? fun e => e.name != "light" && e.name != "dark" with
    | some other => throw (.unexpectedTheme key other.name)
    | none =>
      let light ← themeColor key themes "light"
      let dark ← themeColor key themes "dark"
      return .themed light dark

/-- The key and value of a color entry. -/
def colorOf (e : Xml.Element) : Except Fault (Key × ColorValue) := do
  expectElement "color" e
  let key ← keyOf e
  return (key, ← colorValueOf key e)

/-- The declarations of files of colors, which have no qualifier. -/
def colorDeclarations (sourceSet : SourceSetName) (files : List Path) (t : FileTree) :
    List (Except SourceError (Declaration Unit ColorValue)) :=
  files.flatMap fun path =>
    let p : Place := ⟨sourceSet, .colors, path⟩
    p.declarations () colorOf (p.resources t)

end ResourceCompiler.Source
