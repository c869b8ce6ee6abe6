import ResourceCompiler.Json.Printer
import ResourceCompiler.Native.ImageFolder

/-!
# JSON maps

Resources for JavaScript and WebAssembly: JSON objects by kind and locale, and a folder of images.
Colors are part of generated code and need no files.

## Main definitions

* `Js.mapPath`: where the map of a kind for a locale goes.
* `Js.collect`: the maps of entries by locale, each entry checked when its turn comes.
* `Js.plan`: the output for the entries of a kind.
-/

namespace ResourceCompiler.Native.Js

/-- The name of the platform in faults. -/
def platform : String := "js"

/-- What the name of a map has behind it for a locale. -/
def localeSuffix : Locale → String
  | .base => ""
  | l => "_" ++ l.text

/-- Where the map of a kind for a locale goes. -/
def mapPath (package : PackageName) (resources : Path) (k : Kind) (l : Locale) : Path :=
  resources / "localization" / (package.text ++ "_" ++ k.text ++ localeSuffix l ++ ".json")

/-- An ordered map of texts as an object. -/
def object {κ α : Type} (keyText : κ → String) (valueJson : α → Json) (es : List (κ × α)) : Json :=
  .record (es.map fun e => (keyText e.1, valueJson e.2))

/-- The forms of a plural as an object. -/
def formsJson (forms : PluralForms) : Json := object Quantity.text Json.text forms.entries

/-- Puts the values of an entry into the maps of their locales. -/
def putValues {V : Type} (maps : OrderedMap Locale (OrderedMap Key V))
    (e : Key × OrderedMap Locale V) : OrderedMap Locale (OrderedMap Key V) :=
  e.2.entries.foldl (fun maps (locale, v) =>
    maps.insert locale (((maps.get? locale).getD .empty).insert e.1 v)) maps

/-- Puts the values of entries into maps, up to the first entry without a value for the base
locale. -/
def collect {V : Type} (k : Kind) (maps : OrderedMap Locale (OrderedMap Key V)) :
    List (Key × OrderedMap Locale V) → Except GenerateError (OrderedMap Locale (OrderedMap Key V))
  | [] => .ok maps
  | e :: rest =>
    match requireBase platform k [e] with
    | some fault => .error fault
    | none => collect k (putValues maps e) rest

/-- The map of each locale. -/
def maps {V : Type} (package : PackageName) (resources : Path) (k : Kind) (valueJson : V → Json)
    (entries : List (Key × OrderedMap Locale V)) : Plan :=
  match collect k .empty entries with
  | .error fault => [.error fault]
  | .ok collected => collected.entries.map fun (locale, map) =>
    .ok (.document (mapPath package resources k locale)
      (Json.document (object Key.text valueJson map.entries)))

/-- The output for the entries of a kind. -/
def plan (package : PackageName) (resources : Path) : (k : Kind) → List (Entry k) → Plan
  | .strings, es => maps package resources .strings Json.text (stringValues es)
  | .plurals, es => maps package resources .plurals formsJson (pluralValues es)
  | .images, es => imageFolder platform resources es
  | .colors, _ => []

end ResourceCompiler.Native.Js
