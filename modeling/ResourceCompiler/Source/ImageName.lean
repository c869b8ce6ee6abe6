import ResourceCompiler.Resource.Entry
import ResourceCompiler.Source.Declaration

/-!
# Names of image files

The name of an image file tells its key, its scale and its format: `logo.png`, `logo@2x.png`,
`logo.svg`.

## Main definitions

* `Source.imageOf`: what a file name tells.
* `Source.imageDeclarations`: the declarations of image files.
-/

namespace ResourceCompiler.Source

/-- A text divided at the last at sign in it, if there is one. -/
def divideAtScale (cs : List Char) : Option (List Char × List Char) :=
  match cs.reverse.span (· ≠ '@') with
  | (_, []) => none
  | (scale, _ :: name) => some (name.reverse, scale.reverse)

/-- The name and the scale in the stem of an image file. -/
def scaleOf (format : ImageFormat) (stem : String) : Except Fault (String × Scale) :=
  match divideAtScale stem.toList with
  | some (name, scale) =>
    if format = .svg then .error (.scaledVector stem)
    else ((Scale.ofText? (String.ofList scale)).map fun s => (String.ofList name, s)).mapError
      .invalid
  | none => .ok (stem, if format = .svg then .vector else .unmarked)

/-- The key, scale and format that the name of an image file tells. -/
def imageOf (path : Path) : Except Fault (Key × Scale × ImageFormat) := do
  let extension := path.extension?.getD ""
  match ImageFormat.ofExtension? extension with
  | none => throw (.unsupportedExtension extension)
  | some format =>
    let (name, scale) ← scaleOf format (path.stem?.getD "")
    let key ← (Key.ofText? name).mapError .invalid
    return (key, scale, format)

/-- The declarations of image files. -/
def imageDeclarations (sourceSet : SourceSetName) (files : List Path) :
    List (Except SourceError (Declaration Scale ImageFile)) :=
  files.map fun path =>
    match imageOf path with
    | .ok (key, scale, format) => .ok ⟨key, scale, ⟨path, format⟩, path⟩
    | .error f => .error (.malformed sourceSet .images path f)

end ResourceCompiler.Source
