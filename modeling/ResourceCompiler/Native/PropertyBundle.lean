import ResourceCompiler.Native.ImageFolder
import ResourceCompiler.Text.Hex

/-!
# Property bundles

Resources of the JVM: files of properties by kind and locale, and a folder of images. Colors are
part of generated code and need no files.

## Main definitions

* `Jvm.bundleName`, `Jvm.localeSuffix`: the parts of the name of a bundle.
* `Jvm.escapeProperty`: a key or a value as it stands in a bundle.
* `Jvm.plan`: the output for the entries of a kind.
-/

namespace ResourceCompiler.Native.Jvm

/-- The name of the platform in faults. -/
def platform : String := "jvm"

/-- The name of the bundle of a kind for the base locale, below the resources. -/
def bundleName (package : PackageName) (className : ClassName) (k : Kind) : String :=
  "localization/" ++ package.flat ++ "_" ++ className.text ++ "_" ++ k.text

/-- What the name of a bundle has behind it for a locale. -/
def localeSuffix : Locale → String
  | .base => ""
  | l => String.join (l.parts.map fun part => "_" ++ part)

/-! ### Properties -/

/-- The units of 16 bits that a character has. -/
def units (c : Char) : List Nat :=
  if c.toNat < 0x10000 then [c.toNat]
  else
    let n := c.toNat - 0x10000
    [0xD800 + n / 1024, 0xDC00 + n % 1024]

/-- A character by the numbers of its units. -/
def unitEscape (c : Char) : List Char :=
  (units c).flatMap fun n => '\\' :: 'u' :: Text.hexUnitUpper n

/-- A character of a key or of a value, which may be the first one. -/
def escapeChar (isKey first : Bool) (c : Char) : List Char :=
  if c = '\\' then ['\\', '\\']
  else if c = '\n' then ['\\', 'n']
  else if c = '\r' then ['\\', 'r']
  else if c = '\t' then ['\\', 't']
  else if c = '\x0c' then ['\\', 'f']
  else if isKey ∧ (c = '=' ∨ c = ':') then ['\\', c]
  else if first ∧ (c = '#' ∨ c = '!') then ['\\', c]
  else if c = ' ' ∧ (first ∨ isKey) then ['\\', ' ']
  else if 32 ≤ c.toNat ∧ c.toNat < 127 then [c]
  else unitEscape c

/-- A key or a value as it stands in a bundle. -/
def escapeProperty (isKey : Bool) : List Char → List Char
  | [] => []
  | c :: rest => escapeChar isKey true c ++ rest.flatMap (escapeChar isKey false)

/-- `escapeProperty` on strings. -/
def escape (isKey : Bool) (s : String) : String := String.ofList (escapeProperty isKey s.toList)

/-- The line of a string. -/
def stringLines (e : Key × String) : List String :=
  [escape true e.1.text ++ "=" ++ escape false e.2]

/-- The lines of a plural, one for each form. -/
def pluralLines (e : Key × PluralForms) : List String :=
  e.2.entries.map fun (q, text) => escape true e.1.text ++ "." ++ q.text ++ "=" ++ escape false text

/-- The bundle of each locale that has a line. -/
def bundles {V : Type} (package : PackageName) (className : ClassName) (resources : Path) (k : Kind)
    (lines : Key × V → List String) (entries : List (Key × OrderedMap Locale V)) : Plan :=
  let located := entries.flatMap fun e => e.2.entries.flatMap fun (locale, v) =>
    (lines (e.1, v)).map fun line => (locale, line)
  (OrderedMap.group located).entries.map fun (locale, lines) =>
    .ok (.document
      (resources / (bundleName package className k ++ localeSuffix locale ++ ".properties"))
      (String.join (lines.map fun line => line ++ "\n")))

/-- The output for the entries of a kind. -/
def plan (package : PackageName) (className : ClassName) (resources : Path) :
    (k : Kind) → List (Entry k) → Plan
  | .strings, es =>
    (bundles package className resources .strings stringLines (stringValues es)).orFault
      (requireBase platform .strings (stringValues es))
  | .plurals, es =>
    (bundles package className resources .plurals pluralLines (pluralValues es)).orFault
      (requireBase platform .plurals (pluralValues es))
  | .images, es => imageFolder platform resources es
  | .colors, _ => []

end ResourceCompiler.Native.Jvm
