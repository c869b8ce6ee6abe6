import ResourceCompiler.Native.Plan

/-!
# Image folders

Images that keep their scale in their file names, side by side in one directory.

## Main definitions

* `imageFolder`: the output for images.
-/

namespace ResourceCompiler.Native

/-- The copies of all variants in the directory `images`. -/
def imageFolder (platform : String) (resources : Path) (entries : List (Entry .images)) : Plan :=
  entries.flatMap fun e => (imageValues e).map fun (scale, file) =>
    .ok (.image platform e.key file.path
      (resources / "images" / (e.key.text ++ scale.fileSuffix ++ "." ++ file.format.text)))

end ResourceCompiler.Native
