import ResourceCompiler.Json.Printer
import ResourceCompiler.Native.AppleTable

/-!
# Asset catalogs

Images and colors of the Apple platforms are sets in a catalog. Every set has a file that describes
its contents.

## Main definitions

* `Apple.imagePlan`: the output for images.
* `Apple.colorPlan`: the output for colors.
* `Apple.plan`: the output for the entries of a kind.
-/

namespace ResourceCompiler.Native.Apple

/-- The directory of the catalog. -/
def catalog (assets : Path) : Path := assets / "Assets.xcassets"

/-- The file that describes a directory of a catalog. -/
def contents (directory : Path) (description : Json) : Except GenerateError Output :=
  .ok (.document (directory / "Contents.json") (Json.document description))

/-- Who wrote a description, and in which version of the format. -/
def info : String × Json :=
  ("info", .record [("author", .text "polyres"), ("version", .natural 1)])

/-- The description of the catalog itself. -/
def catalogContents (assets : Path) : Except GenerateError Output :=
  contents (catalog assets) (.record [info])

/-! ### Images -/

/-- The name of the file of a variant. -/
def imageFileName (key : Key) (variant : Scale × ImageFile) : String :=
  key.text ++ variant.1.fileSuffix ++ "." ++ variant.2.format.text

/-- The scales that catalogs have for raster images. -/
def catalogScales : List String := ["1x", "2x", "3x"]

/-- A variant in the description of its set. -/
def imageJson (key : Key) (variant : Scale × ImageFile) : Json :=
  .record ([("idiom", .text "universal"), ("filename", .text (imageFileName key variant))]
    ++ if variant.1 = .vector then [] else [("scale", .text variant.1.text)])

/-- The copy of a variant in its set. -/
def imageCopy (set : Path) (key : Key) (variant : Scale × ImageFile) :
    Except GenerateError Output :=
  if variant.1 ≠ .vector ∧ variant.1.text ∉ catalogScales then
    .error (.unsupported platform .images key (.noCatalogScale variant.1))
  else .ok (.image platform key variant.2.path (set / imageFileName key variant))

/-- The set of an image: its variants, then their description. -/
def imageSet (assets : Path) (e : Entry .images) : Plan :=
  let variants := imageValues e
  let vector := variants.any fun v => v.1.isVector
  let set := catalog assets / (e.key.text ++ ".imageset")
  if vector && !variants.all fun v => v.1.isVector then
    [.error (.unsupported platform .images e.key .mixedVariants)]
  else
    variants.map (imageCopy set e.key) ++
      [contents set (.record ([("images", .array (variants.map (imageJson e.key))), info]
        ++ if vector then
            [("properties", .record [("preserves-vector-representation", .bool true)])]
          else []))]

/-- The output for images. -/
def imagePlan (assets : Path) (entries : List (Entry .images)) : Plan :=
  if entries.isEmpty then []
  else catalogContents assets :: entries.flatMap (imageSet assets)

/-! ### Colors -/

/-- A channel as a hexadecimal number. -/
def channel (b : UInt8) : Json := .text ("0x" ++ String.ofList (Text.hexByteUpper b))

/-- The share of a channel in its largest value, with three places. No share lies halfway between
two of these. -/
def share (b : UInt8) : Json :=
  let thousandths := (2000 * b.toNat + 255) / 510
  let digits := Nat.toDigits 10 (1000 + thousandths % 1000)
  .text (toString (thousandths / 1000) ++ "." ++ String.ofList (digits.drop 1))

/-- A color in the description of its set, with the appearance it is for. -/
def colorJson (c : Color) (appearances : List (String × Json)) : Json :=
  .record ([("idiom", .text "universal")] ++ appearances ++
    [("color", .record [("color-space", .text "srgb"),
      ("components", .record [("red", channel c.red), ("green", channel c.green),
        ("blue", channel c.blue), ("alpha", share c.alpha)])])])

/-- What says that a color is for the dark appearance. -/
def darkAppearance : List (String × Json) :=
  [("appearances", .array
    [.record [("appearance", .text "luminosity"), ("value", .text "dark")]])]

/-- The set of a color. -/
def colorSet (assets : Path) (e : Entry .colors) : Except GenerateError Output :=
  let value : ColorValue := e.value
  let colors := colorJson value.light [] ::
    (value.dark?.map fun c => colorJson c darkAppearance).toList
  contents (catalog assets / (e.key.text ++ ".colorset"))
    (.record [("colors", .array colors), info])

/-- The output for colors. -/
def colorPlan (assets : Path) (entries : List (Entry .colors)) : Plan :=
  if entries.isEmpty then []
  else catalogContents assets :: entries.map (colorSet assets)

/-- The output for the entries of a kind. -/
def plan (region : Locale) (resources assets : Path) : (k : Kind) → List (Entry k) → Plan
  | .strings, es => textPlan region resources es
  | .plurals, es => pluralPlan region resources es
  | .images, es => imagePlan assets es
  | .colors, es => colorPlan assets es

end ResourceCompiler.Native.Apple
