import ResourceCompiler.Config.Settings
import ResourceCompiler.OutputPaths
import ResourceCompiler.Platform
import ResourceCompiler.Resource.Kind
import ResourceCompiler.Resource.Locale
import ResourceCompiler.Resource.Name

/-!
# Configurations

A configuration is what settings come to when nothing is missing and every value is valid.

## Main definitions

* `ConfigError`: what can be wrong with settings.
* `Configuration`: the configuration of a pass.
* `Settings.validate`: checks that need no other setting.
* `Settings.outputPaths`: where output goes. A place of its own comes before the conventional one.
* `Settings.resolve`: the configuration that settings come to.
-/

namespace ResourceCompiler

/-- What can be wrong with settings. -/
inductive ConfigError where
  | unreadable (path : Path) (error : FileError)
  | unparsable (path : Path)
  | missing (setting : String)
  | unknownVisibility (word : String)
  | upperListedTwice (name : String)
  | upperOfItself (name : String)
  | baseRegionIsBase
  | outputUsedTwice (directory : Path)
  | value (error : InvalidValue)
  | platform (error : PlatformError)
deriving DecidableEq

/-- The wording of a fault. -/
def ConfigError.message : ConfigError → String
  | .unreadable path error =>
    "failed to read config file '" ++ path.text ++ "': " ++ error.message
  | .unparsable path => "failed to parse config file '" ++ path.text ++ "': <toml>"
  | .missing setting => "missing required setting '" ++ setting ++ "'"
  | .unknownVisibility word =>
    "invalid config value: invalid visibility '" ++ word ++ "', must be one of: public, internal"
  | .upperListedTwice name =>
    "invalid config value: upper source set '" ++ name ++ "' is listed twice"
  | .upperOfItself name =>
    "invalid config value: source set '" ++ name ++ "' cannot be its own upper source set"
  | .baseRegionIsBase =>
    "invalid config value: ios_base_localization_region must name a real locale"
  | .outputUsedTwice directory =>
    "invalid config value: output directory '" ++ directory.text ++ "' is used twice"
  | .value error => error.message
  | .platform error => error.message

/-- A source set with the directory that holds its resources. -/
structure SourceSet where
  name : SourceSetName
  root : Path
deriving DecidableEq

/-- The configuration of a pass. -/
structure Configuration where
  sourceSet : SourceSetName
  ownResources : Path
  /-- The source sets built upon, the nearest first. -/
  upperSourceSets : List SourceSet
  platform : Platform
  package : PackageName
  className : ClassName
  visibility : Visibility
  strictLineBreaks : Bool
  androidPackage : Option PackageName
  baseRegion : Locale
  inputMetadata : List Path
  output : OutputPaths
  /-- The file that the settings come from. -/
  loadedFrom : Option Path
deriving DecidableEq

namespace Configuration

/-- The name of the object that holds the entries of a kind. -/
def objectName (c : Configuration) (k : Kind) : String :=
  c.package.text ++ "." ++ c.className.text ++ "." ++ k.text

/-- The identifier of the bundle that holds the resources. -/
def bundleIdentifier (c : Configuration) : String := c.package.text ++ "." ++ c.className.text

/-- The source sets of a pass, the least specific first and its own last. -/
def byPrecedence (c : Configuration) : List SourceSet :=
  c.upperSourceSets.reverse ++ [⟨c.sourceSet, c.ownResources⟩]

end Configuration

namespace Settings

/-- What checking gives. -/
abbrev Check (α : Type) := Except ConfigError α

/-- A value of the domain. -/
def valid {α : Type} : Except InvalidValue α → Check α := Except.mapError .value

/-- A setting that has to be there. -/
def required {α : Type} (setting : String) : Option α → Check α
  | some a => .ok a
  | none => .error (.missing setting)

/-- Checks the source sets built upon, of which those in `earlier` came before. -/
def validateUppers (sourceSet : Option String) (earlier : List String) :
    List UpperSettings → Check Unit
  | [] => .ok ()
  | u :: rest =>
    if u.name ∈ earlier then .error (.upperListedTwice u.name)
    else if some u.name = sourceSet then .error (.upperOfItself u.name)
    else validateUppers sourceSet (u.name :: earlier) rest

/-- Checks what can be checked without looking at whether settings are missing. -/
def validate (s : Settings) : Check Unit := do
  match s.visibility with
  | none => pure ()
  | some v => if (Visibility.ofSetting? v).isNone then throw (.unknownVisibility v)
  validateUppers s.sourceSet [] (s.upperSourceSets.getD [])

/-- The place of an output: its own setting, or else the conventional one. -/
def place (own : Option Path) (root : Option Path) (conventional : OutputPaths → Path)
    (setting : String) : Check Path :=
  required setting (own.or (root.map fun r => conventional (.under r)))

/-- Refuses a directory that is the same as one before it. -/
def distinctDirectories (earlier : List Path) : List Path → Check Unit
  | [] => .ok ()
  | d :: rest =>
    if earlier.any d.same then .error (.outputUsedTwice d)
    else distinctDirectories (d :: earlier) rest

/-- Where output goes. -/
def outputPaths (o : OutputSettings) : Check OutputPaths := do
  let paths : OutputPaths :=
    { resources := ← place o.resources o.root OutputPaths.resources "output.resources_dir"
      assets := ← place o.assets o.root OutputPaths.assets "output.assets_dir"
      sources := ← place o.sources o.root OutputPaths.sources "output.sources_dir"
      metadata := ← place o.metadata o.root OutputPaths.metadata "output.metadata_file" }
  distinctDirectories [] paths.directories
  return paths

/-- The configuration that settings come to. -/
def resolve (s : Settings) : Check Configuration := do
  s.validate
  let platform ← (Platform.ofSettings? (← required "platform" s.platform) s.appleTarget).mapError
    .platform
  let sourceSet ← valid (SourceSetName.ofText? (← required "source_set" s.sourceSet))
  let ownResources ← required "own_resources" s.ownResources
  let package ← valid (PackageName.ofText? (← required "package_name" s.packageName))
  let className ← match s.className with
    | some name => valid (ClassName.ofText? name)
    | none => pure ClassName.default
  let visibility := (s.visibility.bind Visibility.ofSetting?).getD .exported
  let androidPackage ← match s.androidPackage with
    | some name => some <$> valid (PackageName.ofText? name)
    | none => pure none
  if platform = .android ∧ androidPackage = none then throw (.missing "android_r_class_package")
  let baseRegion ← valid (Locale.ofText? (s.baseRegion.getD "en"))
  if baseRegion = .base then throw .baseRegionIsBase
  let upperSourceSets ← (s.upperSourceSets.getD []).mapM fun u => do
    return ⟨← valid (SourceSetName.ofText? u.name), u.path⟩
  let output ← outputPaths (s.output.getD {})
  return {
    sourceSet, ownResources, upperSourceSets, platform, package, className, visibility
    strictLineBreaks := s.strictLineBreaks.getD false
    androidPackage, baseRegion
    inputMetadata := s.inputMetadata.getD []
    output
    loadedFrom := none }

end Settings

end ResourceCompiler
