import ResourceCompiler.Path

/-!
# Settings

The settings of a pass as they are given, each of which may be missing. Settings come in layers, and
a layer is laid over the one below it.

## Main definitions

* `Settings`, `OutputSettings`, `UpperSettings`: the settings.
* `Settings.overlay`: one layer over another. A new output root leaves out the output paths of the
  layers below it.
* `Settings.rebase`: the relative paths read from a directory.
-/

namespace ResourceCompiler

/-- A source set that the pass builds upon. -/
structure UpperSettings where
  name : String
  path : Path
deriving DecidableEq

/-- Where output goes: a root with the conventional places, and places of their own. -/
structure OutputSettings where
  root : Option Path := none
  resources : Option Path := none
  assets : Option Path := none
  sources : Option Path := none
  metadata : Option Path := none
deriving DecidableEq

/-- The settings of a pass. -/
structure Settings where
  sourceSet : Option String := none
  ownResources : Option Path := none
  /-- The source sets built upon, the nearest first. -/
  upperSourceSets : Option (List UpperSettings) := none
  platform : Option String := none
  appleTarget : Option String := none
  packageName : Option String := none
  className : Option String := none
  visibility : Option String := none
  strictLineBreaks : Option Bool := none
  androidPackage : Option String := none
  baseRegion : Option String := none
  inputMetadata : Option (List Path) := none
  output : Option OutputSettings := none
deriving DecidableEq

namespace OutputSettings

/-- Output settings over others. -/
def overlay (lower upper : OutputSettings) : OutputSettings :=
  let base := if upper.root.isSome then {} else lower
  { root := upper.root.or base.root
    resources := upper.resources.or base.resources
    assets := upper.assets.or base.assets
    sources := upper.sources.or base.sources
    metadata := upper.metadata.or base.metadata }

/-- The paths read from a directory. -/
def rebase (directory : Path) (o : OutputSettings) : OutputSettings :=
  { root := o.root.map directory.join
    resources := o.resources.map directory.join
    assets := o.assets.map directory.join
    sources := o.sources.map directory.join
    metadata := o.metadata.map directory.join }

end OutputSettings

namespace Settings

/-- The settings of a layer over those of another. -/
def overlay (lower upper : Settings) : Settings where
  sourceSet := upper.sourceSet.or lower.sourceSet
  ownResources := upper.ownResources.or lower.ownResources
  upperSourceSets := upper.upperSourceSets.or lower.upperSourceSets
  platform := upper.platform.or lower.platform
  appleTarget := upper.appleTarget.or lower.appleTarget
  packageName := upper.packageName.or lower.packageName
  className := upper.className.or lower.className
  visibility := upper.visibility.or lower.visibility
  strictLineBreaks := upper.strictLineBreaks.or lower.strictLineBreaks
  androidPackage := upper.androidPackage.or lower.androidPackage
  baseRegion := upper.baseRegion.or lower.baseRegion
  inputMetadata := upper.inputMetadata.or lower.inputMetadata
  output := match lower.output, upper.output with
    | some l, some u => some (l.overlay u)
    | l, u => u.or l

/-- The relative paths read from a directory. -/
def rebase (directory : Path) (s : Settings) : Settings :=
  { s with
    ownResources := s.ownResources.map directory.join
    upperSourceSets := s.upperSourceSets.map
      (List.map fun u => { u with path := directory.join u.path })
    inputMetadata := s.inputMetadata.map (List.map directory.join)
    output := s.output.map (OutputSettings.rebase directory) }

theorem empty_overlay (s : Settings) : overlay {} s = s := by
  cases s
  rename_i output
  cases output <;> simp [overlay]

end Settings

end ResourceCompiler
