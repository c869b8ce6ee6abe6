import ResourceCompiler.Json.Printer
import ResourceCompiler.Metadata.Container

/-!
# Containers as JSON

## Main definitions

* `Resource.toJson`, `Container.toJson`: the JSON of an entry and of a container.
* `Container.canonical`: the compact text of a list of containers.
* `ResourceObject.summary`: what an object declares, without the values of its entries.
-/

namespace ResourceCompiler

/-- An ordered map as an object, with the given texts of keys. -/
def OrderedMap.toJson {κ α : Type} (keyText : κ → String) (valueJson : α → Json)
    (m : OrderedMap κ α) : Json :=
  .record (m.entries.map fun e => (keyText e.1, valueJson e.2))

/-- An image file as an object of its path and format. -/
def ImageFile.toJson (f : ImageFile) : Json :=
  .record [("path", .text f.path.text), ("format", .text f.format.text)]

/-- A color value as an object that says whether appearances differ. -/
def ColorValue.toJson : ColorValue → Json
  | .single color => .record [("mode", .text "single"), ("color", .text color.text)]
  | .themed light dark =>
    .record [("mode", .text "themed"), ("light", .text light.text), ("dark", .text dark.text)]

/-- The word for an entry of a kind. -/
def Kind.entryWord : Kind → String
  | .strings => "string"
  | .plurals => "plural"
  | .images => "image"
  | .colors => "color"

/-- The member of an entry that holds its value. -/
def Kind.valueMember : (k : Kind) → k.Value → String × Json
  | .strings, v => ("values", OrderedMap.toJson Locale.text Json.text v)
  | .plurals, v =>
    ("values", OrderedMap.toJson Locale.text (OrderedMap.toJson Quantity.text Json.text) v)
  | .images, v => ("values", OrderedMap.toJson Scale.text ImageFile.toJson v)
  | .colors, v => ("value", ColorValue.toJson v)

/-- An entry as an object of its kind, key and value. -/
def Resource.toJson (r : Resource) : Json :=
  .record [("kind", .text r.kind.entryWord), ("key", .text r.key.text),
    r.kind.valueMember r.entry.value]

/-- The members that tell what a container is. -/
def Shape.members (name : String) : Shape → List (String × Json)
  | .object type role visibility =>
    [("type", .text "object"), ("name", .text name), ("resource_type", .text type.text),
      ("kind", .text role.text), ("visibility", .text visibility.text)]
  | .group => [("type", .text "namespace"), ("name", .text name)]

namespace Container

mutual

/-- A container as an object. -/
def toJson : Container → Json
  | node name shape values nested =>
    .record (shape.members name ++
      [("values", .array (values.map Resource.toJson)), ("nested", .array (toJsonAll nested))])

/-- The containers of a list, each as an object. -/
def toJsonAll : List Container → List Json
  | [] => []
  | c :: rest => toJson c :: toJsonAll rest

end

/-- The text of containers that their fingerprint is taken of. -/
def canonical (cs : List Container) : String :=
  String.ofList (Json.compact (.array (toJsonAll cs)))

end Container

/-- An object by its name, what it declares, and its keys. -/
def ResourceObject.summary (o : ResourceObject) : Json :=
  .record [("name", .text o.name), ("resource_type", .text o.type.text),
    ("kind", .text o.role.text), ("visibility", .text o.visibility.text),
    ("keys", .array (o.values.map fun r => .text r.key.text))]

end ResourceCompiler
