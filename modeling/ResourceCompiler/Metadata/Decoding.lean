import ResourceCompiler.Json.Value
import ResourceCompiler.Metadata.Container

/-!
# Containers from JSON

The schema is strict: members have to be known, none may occur twice, and those without default
have to be there. A record can also be given as the array of its members' values, in order. Faults
are reported in the order of the text.

## Main definitions

* `DecodeError`: why a JSON value is refused.
* `Decode.record`: reads a record with given members.
* `Decode.tagged`: reads a record that names its own form in one of its members.
* `Decode.resource`, `Decode.container`: an entry and a container.
-/

namespace ResourceCompiler

/-- Why a JSON value is refused. -/
inductive DecodeError where
  /-- It does not have the form of the schema. -/
  | malformed
  /-- A text in it is not a value of the domain. -/
  | invalid (value : InvalidValue)
deriving DecidableEq

/-- The wording of a refusal; for a wrong form it is only a mark. -/
def DecodeError.message : DecodeError → String
  | .malformed => "<json>"
  | .invalid value => value.message

namespace Decode

/-- What reading gives. -/
abbrev Result (α : Type) := Except DecodeError α

/-- The value, if there is one. -/
def required {α : Type} : Option α → Result α
  | some a => .ok a
  | none => .error .malformed

/-- A text that has to be a value of the domain. -/
def valid {α : Type} : Except InvalidValue α → Result α
  | .ok a => .ok a
  | .error e => .error (.invalid e)

/-! ### Plain values -/

/-- A text. -/
def text : Json → Result String
  | .string (some s) => .ok s
  | _ => .error .malformed

/-- A path. -/
def path (j : Json) : Result Path := (text j).map Path.mk

/-- A text that a reader of the domain accepts. -/
def parsed {α : Type} (ofText? : String → Except InvalidValue α) (j : Json) : Result α := do
  valid (ofText? (← text j))

/-- A word, given as a text, or as an object whose only member has the word as its name and nothing
as its value. -/
def word {α : Type} (ofText? : String → Option α) : Json → Result α
  | .string (some s) => required (ofText? s)
  | .object [(some s, .null)] => required (ofText? s)
  | .object [(some s, .object [])] => required (ofText? s)
  | _ => .error .malformed

/-- A list. -/
def list {α : Type} (item : Json → Result α) : Json → Result (List α)
  | .array items => items.mapM item
  | _ => .error .malformed

/-- An ordered map. A key that occurs again keeps its place and takes the new value. -/
def map {κ α : Type} [DecidableEq κ] (key : String → Result κ) (value : Json → Result α) :
    Json → Result (OrderedMap κ α)
  | .object members =>
    members.foldlM (fun m (name, v) => do
      let k ← key (← required name)
      return m.insert k (← value v)) .empty
  | _ => .error .malformed

/-! ### Records -/

/-- The members of an object put into a state one by one, by the name of each. Names already taken
and unknown names are refused where they stand. -/
def members {σ : Type} (names : List String) (put : String → Json → σ → Result σ)
    (taken : List String) (state : σ) : List (Option String × Json) → Result σ
  | [] => .ok state
  | (some name, value) :: rest =>
    if name ∈ names ∧ name ∉ taken then do
      members names put (name :: taken) (← put name value state) rest
    else .error .malformed
  | (none, _) :: _ => .error .malformed

/-- The items of an array put into a state as the members of the given names. -/
def items {σ : Type} (put : String → Json → σ → Result σ) (state : σ) :
    List String → List Json → Result σ
  | _, [] => .ok state
  | name :: names, value :: rest => do items put (← put name value state) names rest
  | [], _ :: _ => .error .malformed

/-- A record with members of the given names, as an object or as an array. -/
def record {σ : Type} (names : List String) (put : String → Json → σ → Result σ) (state : σ) :
    Json → Result σ
  | .object ms => members names put [] state ms
  | .array values => items put state names values
  | _ => .error .malformed

/-- The word that a tag stands for. Inside a value that has been taken in whole, the position of
the word among all words stands for it as well. -/
def tagWord {α : Type} (words : List (String × α)) (whole : Bool) : Json → Result α
  | .string (some s) => required ((words.find? fun w => w.1 == s).map Prod.snd)
  | .number written =>
    if whole then required ((Json.natural? written).bind fun n => words[n]?.map Prod.snd)
    else .error .malformed
  | _ => .error .malformed

/-- The tag of a record and the rest of the record. An object has it in the member `name`, once; an
array has it in front. -/
def tagged {α : Type} (name : String) (words : List (String × α)) (whole : Bool) :
    Json → Result (α × Json)
  | .object ms =>
    match ms.filter fun m => m.1 == some name with
    | [(_, tag)] => do
      return (← tagWord words whole tag, .object (ms.filter fun m => m.1 != some name))
    | _ => .error .malformed
  | .array (tag :: rest) => do return (← tagWord words whole tag, .array rest)
  | _ => .error .malformed

/-! ### Entries -/

/-- An image file. -/
def imageFile (j : Json) : Result ImageFile := do
  let (p, f) ← record ["path", "format"] (fun name v (p, f) => do
    if name = "path" then return (some (← path v), f)
    else return (p, some (← word ImageFormat.ofText? v))) (none, none) j
  return ⟨← required p, ← required f⟩

/-- A color value. -/
def colorValue (j : Json) : Result ColorValue := do
  match ← tagged "mode" [("single", true), ("themed", false)] true j with
  | (true, rest) =>
    let c ← record ["color"] (fun _ v _ => do return some (← parsed Color.ofText? v)) none rest
    return .single (← required c)
  | (false, rest) =>
    let (l, d) ← record ["light", "dark"] (fun name v (l, d) => do
      let c ← parsed Color.ofText? v
      if name = "light" then return (some c, d) else return (l, some c)) (none, none) rest
    return .themed (← required l) (← required d)

/-- The value of an entry of a kind. -/
def value : (k : Kind) → Json → Result k.Value
  | .strings, j => map (fun s => valid (Locale.ofText? s)) text j
  | .plurals, j =>
    map (fun s => valid (Locale.ofText? s)) (map (fun s => required (Quantity.ofText? s)) text) j
  | .images, j => map (fun s => valid (Scale.ofText? s)) imageFile j
  | .colors, j => colorValue j

/-- The name of the member of an entry that holds its value. -/
def valueName : Kind → String
  | .colors => "value"
  | _ => "values"

/-- An entry of a kind, from the record without its tag. -/
def entry (k : Kind) (j : Json) : Result (Entry k) := do
  let (key, v) ← record ["key", valueName k] (fun name v (key, old) => do
    if name = "key" then return (some (← parsed Key.ofText? v), old)
    else return (key, some (← value k v))) (none, none) j
  return ⟨← required key, ← required v⟩

/-- An entry of any kind. -/
def resource (j : Json) : Result Resource := do
  let (k, rest) ← tagged "kind"
    [("string", Kind.strings), ("plural", .plurals), ("image", .images), ("color", .colors)] true j
  return ⟨k, ← entry k rest⟩

/-! ### Containers -/

/-- The members of a container that have been read. -/
structure ContainerParts where
  name : Option String := none
  type : Option Kind := none
  role : Option Role := none
  visibility : Option Visibility := none
  values : Option (List Resource) := none
  nested : List Container := []

/-- Puts a member of a container to those that have been read. -/
def ContainerParts.put (nested : Json → Result (List Container)) (member : String) (v : Json)
    (parts : ContainerParts) : Result ContainerParts := do
  match member with
  | "name" => return { parts with name := some (← text v) }
  | "resource_type" => return { parts with type := some (← word Kind.ofText? v) }
  | "kind" => return { parts with role := some (← word Role.ofText? v) }
  | "visibility" => return { parts with visibility := some (← word Visibility.ofText? v) }
  | "values" => return { parts with values := some (← list resource v) }
  | _ => return { parts with nested := ← nested v }

/-- The names of the members of an object behind its tag. -/
def objectNames : List String :=
  ["name", "resource_type", "kind", "visibility", "values", "nested"]

/-- The names of the members of a group behind its tag. -/
def groupNames : List String := ["name", "values", "nested"]

/-- A container that opens at most `room` levels of containers. -/
def container : Nat → Bool → Json → Result Container
  | 0, _, _ => .error .malformed
  | room + 1, whole, j => do
    match ← tagged "type" [("object", true), ("namespace", false)] whole j with
    | (true, rest) =>
      let p ← record objectNames (ContainerParts.put (list (container room true))) {} rest
      return .node (← required p.name)
        (.object (← required p.type) (← required p.role) (← required p.visibility))
        (← required p.values) p.nested
    | (false, rest) =>
      let p ← record groupNames (ContainerParts.put (list (container room true))) {} rest
      return .node (← required p.name) .group (p.values.getD []) p.nested

/-- A list of containers, below `depth` open arrays and objects. Each of them is taken in whole
before it is looked into. -/
def containers (depth : Nat) : Json → Result (List Container) :=
  list fun j =>
    if Json.readable (Json.maxDepth - depth) j then container Json.maxDepth false j
    else .error .malformed

end Decode

end ResourceCompiler
