import ResourceCompiler.FileTree.Action
import ResourceCompiler.Resource.Entry

/-!
# Plans of native output

What a platform makes of resources is planned before anything is written: a plan lists the files in
the order in which they are written, and the fault that ends it, if there is one.

## Main definitions

* `Native.Output`: a file to be written, or an image to be copied.
* `Native.GenerateError`: why a platform cannot represent resources, or a file cannot be written.
* `Native.Plan`, `Native.Plan.perform`: plans, and what carries them out.
* `Native.requireBase`: the check that all entries have a value for the base locale.
* `Native.byLocale`: localized values arranged by locale.
-/

namespace ResourceCompiler.Native

/-- Why a platform cannot represent an entry. -/
inductive Reason where
  | upperCaseKey
  | vectorDrawable
  | noDensity (scale : Scale)
  | mixedVariants
  | noCatalogScale (scale : Scale)
deriving DecidableEq

/-- The wording of a reason. -/
def Reason.message : Reason → String
  | .upperCaseKey => "drawable names must be lowercase"
  | .vectorDrawable => "svg images must be converted to vector drawables"
  | .noDensity scale => "no density bucket for scale '" ++ scale.text ++ "'"
  | .mixedVariants => "an image set cannot mix vector and raster variants"
  | .noCatalogScale scale => "asset catalogs have no '" ++ scale.text ++ "' scale"

/-- Why native output cannot be made. -/
inductive GenerateError where
  | unsupported (platform : String) (kind : Kind) (key : Key) (reason : Reason)
  | missingBaseLocale (platform : String) (kind : Kind) (key : Key)
  | missingImage (platform : String) (key : Key) (path : Path)
  | unwritable (path : Path) (error : FileError)
deriving DecidableEq

/-- The wording of an error. -/
def GenerateError.message : GenerateError → String
  | .unsupported platform kind key reason =>
    platform ++ " cannot represent " ++ kind.text ++ " resource '" ++ key.text ++ "': "
      ++ reason.message
  | .missingBaseLocale platform kind key =>
    platform ++ " requires a base locale for " ++ kind.text ++ " resource '" ++ key.text ++ "'"
  | .missingImage platform key path =>
    platform ++ ": image '" ++ key.text ++ "' references missing file '" ++ path.text ++ "'"
  | .unwritable path error => "failed to write '" ++ path.text ++ "': " ++ error.message

/-- A file of native output. -/
inductive Output where
  /-- A file with the given text. -/
  | document (path : Path) (text : String)
  /-- A copy of an image file. -/
  | image (platform : String) (key : Key) (source target : Path)

namespace Output

/-- Where the file goes. -/
def path : Output → Path
  | document path _ => path
  | image _ _ _ target => target

/-- Writes the file, with the directories that hold it. -/
def perform : Output → FileAction GenerateError Path
  | document path text => do
    (createHolders path).mapError (GenerateError.unwritable path)
    (FileAction.change fun t => t.write path text.toUTF8).mapError (GenerateError.unwritable path)
    return path
  | image platform key source target => do
    if ← FileAction.ask fun t => t.isFile source then
      (createHolders target).mapError (GenerateError.unwritable target)
      (copyFile source target).mapError (GenerateError.unwritable target)
      return target
    else FileAction.fail (.missingImage platform key source)

end Output

/-- The files to be written, in order, and the fault that ends them. -/
abbrev Plan := List (Except GenerateError Output)

namespace Plan

/-- Writes the files of a plan up to its fault, and gives their paths. -/
def perform (plan : Plan) : FileAction GenerateError (List Path) :=
  FileAction.each (fun
    | .ok output => output.perform
    | .error e => FileAction.fail e) plan

/-- Only the fault if there is one, or else the plan. -/
def orFault (plan : Plan) (fault : Option GenerateError) : Plan :=
  match fault with
  | some e => [.error e]
  | none => plan

end Plan

/-- The paths without those that name a place named before. -/
def distinctPaths (paths : List Path) : List Path :=
  paths.foldl (fun seen p => if seen.any p.same then seen else seen ++ [p]) []

/-! ### Localized values -/

/-- The fault of the first entry without a value for the base locale. -/
def requireBase {V : Type} (platform : String) (kind : Kind)
    (entries : List (Key × OrderedMap Locale V)) : Option GenerateError :=
  (entries.find? fun e => !e.2.contains .base).map fun e =>
    .missingBaseLocale platform kind e.1

/-- Localized values arranged by locale: the locales in the order in which they first occur, and
for each the entries that have a value for it. -/
def byLocale {V : Type} (entries : List (Key × OrderedMap Locale V)) :
    OrderedMap Locale (List (Key × V)) :=
  .group (entries.flatMap fun e => e.2.entries.map fun (locale, v) => (locale, (e.1, v)))

/-- The keys and texts of strings. -/
def stringValues (entries : List (Entry .strings)) : List (Key × OrderedMap Locale String) :=
  entries.map fun e => (e.key, e.value)

/-- The keys and forms of plurals. -/
def pluralValues (entries : List (Entry .plurals)) : List (Key × OrderedMap Locale PluralForms) :=
  entries.map fun e => (e.key, e.value)

/-- The keys and files of images, one for each scale. -/
def imageValues (e : Entry .images) : List (Scale × ImageFile) := OrderedMap.entries e.value

end ResourceCompiler.Native
