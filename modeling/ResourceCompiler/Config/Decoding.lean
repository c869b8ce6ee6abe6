import ResourceCompiler.Config.Settings
import ResourceCompiler.Toml.Reader

/-!
# Settings from TOML

Unknown keys are refused. A record can also be given as the array of its values, in order; values
behind those of the record do not count then.

## Main definitions

* `Settings.ofText?`: reads a document of settings.
-/

namespace ResourceCompiler

namespace Toml

/-- A text. -/
def text? : Toml → Option String
  | .string s => some s
  | _ => none

/-- A path. -/
def path? (v : Toml) : Option Path := v.text?.map Path.mk

/-- A truth value. -/
def boolean? : Toml → Option Bool
  | .boolean b => some b
  | _ => none

/-- The values of an array of any form. -/
def items? : Toml → Option (List Toml)
  | .array items => some items
  | .elements es => some (es.map (.table .header))
  | _ => none

/-- A list. -/
def list? {α : Type} (item : Toml → Option α) (v : Toml) : Option (List α) :=
  v.items?.bind fun items => items.mapM item

/-- The members of a table put into a record one by one. -/
def members? {σ : Type} (put : String → Toml → σ → Option σ) (state : σ) (members : Members) :
    Option σ :=
  members.foldlM (fun state (key, v) => put key v state) state

/-- A record, with the names of its members in order. -/
def record? {σ : Type} (names : List String) (put : String → Toml → σ → Option σ) (state : σ)
    (v : Toml) : Option σ :=
  match v with
  | .table _ members => members? put state members
  | v => v.items?.bind fun items => members? put state (names.zip items)

end Toml

/-- Puts the setting of a key to output settings. -/
def OutputSettings.put (key : String) (v : Toml) (o : OutputSettings) : Option OutputSettings := do
  match key with
  | "root" => return { o with root := some (← v.path?) }
  | "resources_dir" => return { o with resources := some (← v.path?) }
  | "assets_dir" => return { o with assets := some (← v.path?) }
  | "sources_dir" => return { o with sources := some (← v.path?) }
  | "metadata_file" => return { o with metadata := some (← v.path?) }
  | _ => none

/-- Output settings. -/
def OutputSettings.ofToml? (v : Toml) : Option OutputSettings :=
  v.record? ["root", "resources_dir", "assets_dir", "sources_dir", "metadata_file"]
    OutputSettings.put {}

/-- A source set that the pass builds upon. -/
def UpperSettings.ofToml? (v : Toml) : Option UpperSettings := do
  let (name, path) ← v.record? ["name", "path"] (fun key v (name, path) => do
    match key with
    | "name" => return (some (← v.text?), path)
    | "path" => return (name, some (← v.path?))
    | _ => none) (none, none)
  return ⟨← name, ← path⟩

namespace Settings

/-- Puts the setting of a key to settings. -/
def put (key : String) (v : Toml) (s : Settings) : Option Settings := do
  match key with
  | "source_set" => return { s with sourceSet := some (← v.text?) }
  | "own_resources" => return { s with ownResources := some (← v.path?) }
  | "upper_source_sets" =>
    return { s with upperSourceSets := some (← v.list? UpperSettings.ofToml?) }
  | "platform" => return { s with platform := some (← v.text?) }
  | "apple_target" => return { s with appleTarget := some (← v.text?) }
  | "package_name" => return { s with packageName := some (← v.text?) }
  | "class_name" => return { s with className := some (← v.text?) }
  | "visibility" => return { s with visibility := some (← v.text?) }
  | "strict_line_breaks" => return { s with strictLineBreaks := some (← v.boolean?) }
  | "android_r_class_package" => return { s with androidPackage := some (← v.text?) }
  | "ios_base_localization_region" => return { s with baseRegion := some (← v.text?) }
  | "input_metadata" => return { s with inputMetadata := some (← v.list? Toml.path?) }
  | "output" => return { s with output := some (← OutputSettings.ofToml? v) }
  | _ => none

/-- Reads a document of settings. -/
def ofText? (s : String) : Option Settings := do
  Toml.members? put {} (← Toml.read s)

end Settings

end ResourceCompiler
