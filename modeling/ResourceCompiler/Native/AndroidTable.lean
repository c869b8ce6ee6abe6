import ResourceCompiler.Native.Plan
import ResourceCompiler.Xml.Escape

/-!
# Android resources

Tables of strings, plurals and colors in directories by locale and appearance, and drawables in
directories by density.

## Main definitions

* `Android.valuesDirectory`: the directory of the tables of a locale.
* `Android.density?`: the density of a raster scale.
* `Android.escapeText`: a text as it stands in a table.
* `Android.plan`: the output for the entries of a kind.
-/

namespace ResourceCompiler.Native.Android

/-- The name of the platform in faults. -/
def platform : String := "android"

/-- The directory of the tables of a locale. A script, or a region of digits, needs the long form
of the name. -/
def valuesDirectory : Locale → String
  | .base => "values"
  | .tag language none none => "values-" ++ language.val
  | .tag language none (some region) =>
    if region.val.toList.length = 2 then "values-" ++ language.val ++ "-r" ++ region.val
    else "values-b+" ++ language.val ++ "+" ++ region.val
  | .tag language (some script) none => "values-b+" ++ language.val ++ "+" ++ script.val
  | .tag language (some script) (some region) =>
    "values-b+" ++ language.val ++ "+" ++ script.val ++ "+" ++ region.val

/-- The density of a raster scale. -/
def density? (s : Scale) : Option String :=
  [("0.75x", "ldpi"), ("1x", "mdpi"), ("1.5x", "hdpi"), ("2x", "xhdpi"), ("3x", "xxhdpi"),
    ("4x", "xxxhdpi")].lookup s.text

/-! ### Texts -/

/-- A character of a text, which may be the first one. -/
def escapeChar (first : Bool) (c : Char) : List Char :=
  if c = '\\' ∨ c = '\'' ∨ c = '"' then ['\\', c]
  else if c = '\n' then ['\\', 'n']
  else if c = '\t' then ['\\', 't']
  else if first ∧ (c = '@' ∨ c = '?') then ['\\', c]
  else if c = '&' ∨ c = '<' ∨ c = '>' then Xml.escapeChar c
  else [c]

/-- A text as it stands in a table. -/
def escapeText : List Char → List Char
  | [] => []
  | c :: rest => escapeChar true c ++ rest.flatMap (escapeChar false)

/-- `escapeText` on strings. -/
def escape (s : String) : String := String.ofList (escapeText s.toList)

/-! ### Tables -/

/-- A table with the given entries. -/
def table (package : PackageName) (body : String) : String :=
  "<?xml version=\"1.0\" encoding=\"utf-8\"?>\n<!-- Generated by polyres for " ++ package.text
    ++ ".R, do not edit. -->\n<resources>\n" ++ body ++ "</resources>\n"

/-- An entry of a table of strings. -/
def stringLine (e : Key × String) : String :=
  "    <string name=\"" ++ e.1.text ++ "\">" ++ escape e.2 ++ "</string>\n"

/-- A form of a plural. -/
def formLine (e : Quantity × String) : String :=
  "        <item quantity=\"" ++ e.1.text ++ "\">" ++ escape e.2 ++ "</item>\n"

/-- An entry of a table of plurals. -/
def pluralLines (e : Key × PluralForms) : String :=
  "    <plurals name=\"" ++ e.1.text ++ "\">\n" ++ String.join (e.2.entries.map formLine)
    ++ "    </plurals>\n"

/-- An entry of a table of colors. -/
def colorLine (key : Key) (c : Color) : String :=
  "    <color name=\"" ++ key.text ++ "\">" ++ c.argb ++ "</color>\n"

/-- The table of each locale, in the file of the given name. -/
def tables {V : Type} (package : PackageName) (resources : Path) (file : String)
    (line : Key × V → String) (entries : List (Key × OrderedMap Locale V)) : Plan :=
  (byLocale entries).entries.map fun (locale, items) =>
    .ok (.document (resources / valuesDirectory locale / file)
      (table package (String.join (items.map line))))

/-- The tables of colors: one of the light appearance, and one of the dark appearance if a color
has one. -/
def colorTables (package : PackageName) (resources : Path) (entries : List (Entry .colors)) :
    Plan :=
  let light := entries.map fun e => colorLine e.key (ColorValue.light e.value)
  let dark := entries.filterMap fun e => (ColorValue.dark? e.value).map (colorLine e.key)
  let file (directory : String) (lines : List String) : Except GenerateError Output :=
    .ok (.document (resources / directory / "colors.xml") (table package (String.join lines)))
  if entries.isEmpty then []
  else file "values" light :: if dark.isEmpty then [] else [file "values-night" dark]

/-! ### Drawables -/

/-- The drawable of a variant of an image. -/
def drawable (resources : Path) (key : Key) (variant : Scale × ImageFile) :
    Except GenerateError Output :=
  let unsupported (r : Reason) : Except GenerateError Output :=
    .error (.unsupported platform .images key r)
  if variant.1 = .vector then unsupported .vectorDrawable
  else match density? variant.1 with
    | none => unsupported (.noDensity variant.1)
    | some bucket =>
      .ok (.image platform key variant.2.path
        (resources / ("drawable-" ++ bucket) / (key.text ++ "." ++ variant.2.format.text)))

/-- The drawables of an image. -/
def drawables (resources : Path) (e : Entry .images) : Plan :=
  if e.key.isLowercase then (imageValues e).map (drawable resources e.key)
  else [.error (.unsupported platform .images e.key .upperCaseKey)]

/-- The output for the entries of a kind. -/
def plan (package : PackageName) (resources : Path) : (k : Kind) → List (Entry k) → Plan
  | .strings, es =>
    (tables package resources "strings.xml" stringLine (stringValues es)).orFault
      (requireBase platform .strings (stringValues es))
  | .plurals, es =>
    (tables package resources "plurals.xml" pluralLines (pluralValues es)).orFault
      (requireBase platform .plurals (pluralValues es))
  | .images, es => es.flatMap (drawables resources)
  | .colors, es => colorTables package resources es

end ResourceCompiler.Native.Android
