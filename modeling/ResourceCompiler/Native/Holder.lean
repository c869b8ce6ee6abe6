import ResourceCompiler.Metadata.Encoding
import ResourceCompiler.Native.PropertyBundle
import ResourceCompiler.Native.PropertyList

/-!
# Resource holders

The file that tells generated code where its resources are, written once for all kinds.

## Main definitions

* `Holder.bundleInfo`: the property list of an Apple bundle.
* `Holder.descriptor`: the description of the bundles and objects of the JVM.
-/

namespace ResourceCompiler.Native.Holder

/-- The property list of an Apple bundle. -/
def bundleInfo (package : PackageName) (className : ClassName) (region : Locale) (sources : Path) :
    Plan :=
  let entry := PropertyList.entry "    "
  [.ok (.document (sources / "Info.plist") (PropertyList.document
    (entry "CFBundleDevelopmentRegion" region.text
      ++ entry "CFBundleIdentifier" (package.text ++ "." ++ className.text)
      ++ entry "CFBundleName" className.text
      ++ entry "CFBundlePackageType" "BNDL")))]

/-- The description of the bundles and objects of the JVM. -/
def descriptor (package : PackageName) (className : ClassName) (sources : Path)
    (objects : List ResourceObject) : Plan :=
  [.ok (.document (sources / (className.text ++ ".holder.json")) (Json.document
    (.record [("package", .text package.text), ("class_name", .text className.text),
      ("strings_bundle", .text (Jvm.bundleName package className .strings)),
      ("plurals_bundle", .text (Jvm.bundleName package className .plurals)),
      ("images_dir", .text "images"), ("objects", .array (objects.map ResourceObject.summary))])))]

end ResourceCompiler.Native.Holder
