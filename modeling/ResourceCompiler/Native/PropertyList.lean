import ResourceCompiler.Xml.Escape

/-!
# Property lists

## Main definitions

* `PropertyList.document`: the property list of a dictionary with the given lines.
* `PropertyList.entry`: a key with a text.
-/

namespace ResourceCompiler.Native.PropertyList

/-- The property list whose dictionary has the given lines. -/
def document (body : String) : String :=
  "<?xml version=\"1.0\" encoding=\"UTF-8\"?>\n"
    ++ "<!DOCTYPE plist PUBLIC \"-//Apple//DTD PLIST 1.0//EN\" "
    ++ "\"http://www.apple.com/DTDs/PropertyList-1.0.dtd\">\n"
    ++ "<plist version=\"1.0\">\n<dict>\n" ++ body ++ "</dict>\n</plist>\n"

/-- A key with a text, on lines that start with the given blanks. -/
def entry (indent key value : String) : String :=
  indent ++ "<key>" ++ key ++ "</key>\n" ++ indent ++ "<string>"
    ++ String.ofList (Xml.escape value.toList) ++ "</string>\n"

end ResourceCompiler.Native.PropertyList
