import ResourceCompiler.FileTree.Access
import ResourceCompiler.Resource.Kind
import ResourceCompiler.Resource.Name
import ResourceCompiler.Source.Escape
import ResourceCompiler.Xml.Reader

/-!
# Faults in resource files

## Main definitions

* `Source.Fault`: what can be wrong inside a file.
* `Source.SourceError`: a fault with its place, a file that cannot be read, or two declarations of
  one thing.
-/

namespace ResourceCompiler.Source

/-- What can be wrong inside a resource file. -/
inductive Fault where
  | xml (error : Xml.XmlError)
  | wrongRoot (found : String)
  | invalid (error : InvalidValue)
  | missingName (element : String)
  | unexpectedElement (found expected : String)
  /-- An escape in the text of an entry, given with the word for such entries. -/
  | escape (entry : String) (key : Key) (error : EscapeError)
  | itemWithoutQuantity (key : Key)
  | quantityTwice (key : Key) (quantity : Quantity)
  | missingOther (key : Key)
  | unsupportedExtension (extension : String)
  | scaledVector (stem : String)
  | invalidColor (key : Key) (error : InvalidValue)
  | unexpectedTheme (key : Key) (found : String)
  | missingTheme (key : Key) (theme : String)
deriving DecidableEq

/-- The wording of a fault. -/
def Fault.message : Fault → String
  | .xml error => error.message
  | .wrongRoot found => "root element must be <resources>, found <" ++ found ++ ">"
  | .invalid error => error.message
  | .missingName element => "<" ++ element ++ "> is missing the 'name' attribute"
  | .unexpectedElement found expected =>
    "unexpected element <" ++ found ++ ">, expected <" ++ expected ++ ">"
  | .escape entry key error => entry ++ " '" ++ key.text ++ "': " ++ error.message
  | .itemWithoutQuantity key => "plural '" ++ key.text ++ "' has an item without a valid quantity"
  | .quantityTwice key quantity =>
    "plural '" ++ key.text ++ "' defines quantity '" ++ quantity.text ++ "' twice"
  | .missingOther key => "plural '" ++ key.text ++ "' is missing the 'other' quantity"
  | .unsupportedExtension extension => "unsupported image extension '" ++ extension ++ "'"
  | .scaledVector stem => "vector image '" ++ stem ++ "' cannot carry a scale suffix"
  | .invalidColor key error => "color '" ++ key.text ++ "': " ++ error.message
  | .unexpectedTheme key found =>
    "color '" ++ key.text ++ "' has unexpected element <" ++ found ++ ">"
  | .missingTheme key theme => "color '" ++ key.text ++ "' is missing <" ++ theme ++ ">"

/-- Why the resource files of a source set give no entries. -/
inductive SourceError where
  | unreadable (sourceSet : SourceSetName) (path : Path) (error : FileError)
  | malformed (sourceSet : SourceSetName) (kind : Kind) (path : Path) (fault : Fault)
  | duplicate (sourceSet : SourceSetName) (kind : Kind) (key : Key) (qualifier : String)
      (first second : Path)
deriving DecidableEq

/-- The wording of an error. -/
def SourceError.message : SourceError → String
  | .unreadable sourceSet path error =>
    "failed to read '" ++ path.text ++ "' in source set '" ++ sourceSet.text ++ "': "
      ++ error.message
  | .malformed sourceSet kind path fault =>
    "malformed " ++ kind.text ++ " file '" ++ path.text ++ "' in source set '" ++ sourceSet.text
      ++ "': " ++ fault.message
  | .duplicate sourceSet kind key qualifier first second =>
    kind.text ++ " resource '" ++ key.text ++ "' is declared twice for '" ++ qualifier
      ++ "' in source set '" ++ sourceSet.text ++ "' ('" ++ first.text ++ "' and '" ++ second.text
      ++ "')"

end ResourceCompiler.Source
