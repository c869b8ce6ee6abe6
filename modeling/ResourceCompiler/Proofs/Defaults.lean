import ResourceCompiler.Proofs.Config.Checks

/-!
# Defaults

The least settings that a pass for all platforms needs, and what the others default to. Whatever
the settings are, the output of a configuration is that of its settings.

* `Settings.least`: the settings that have to be there.
* `Configuration.ofDefaults`: the configuration with everything else at its default.
* `Settings.outputPaths_eq_ok`, `Settings.outputPaths_of_resolve`: where output goes.
* `Settings.checked_least`, `Settings.resolve_least`: the defaults pass every check.
-/

namespace ResourceCompiler

/-- The configuration of a pass for all platforms with everything at its default that may be left
out. -/
def Configuration.ofDefaults (own : SourceSet) (package : PackageName) (output : OutputPaths) :
    Configuration where
  sourceSet := own.name
  ownResources := own.root
  upperSourceSets := []
  platform := .common
  package := package
  className := .default
  visibility := .exported
  strictLineBreaks := false
  androidPackage := none
  baseRegion := .tag ⟨"en", by decide⟩ none none
  inputMetadata := []
  output := output
  loadedFrom := none

namespace Settings

/-- The settings that a pass for all platforms has to be given. -/
def least (own : SourceSet) (package : PackageName) (output : OutputPaths) : Settings where
  sourceSet := own.name.text
  ownResources := own.root
  platform := "common"
  packageName := package.text
  output := some
    { resources := output.resources
      assets := output.assets
      sources := output.sources
      metadata := output.metadata }

theorem outputPaths_of_places {o : OutputPaths} (h : distinctDirectories [] o.directories = .ok ())
    (root : Option Path) :
    outputPaths ⟨root, o.resources, o.assets, o.sources, o.metadata⟩ = .ok o := by
  have hplace (p : Path) (conventional : OutputPaths → Path) (setting : String) :
      place (some p) root conventional setting = .ok p := rfl
  simp only [outputPaths, hplace, bind, Except.bind]
  rw [h]
  rfl

/-- Output goes to its own places or to the conventional ones, if the directories are distinct. -/
theorem outputPaths_eq_ok {s : OutputSettings} {o : OutputPaths} (h : outputPaths s = .ok o) :
    place s.resources s.root OutputPaths.resources "output.resources_dir" = .ok o.resources ∧
      place s.assets s.root OutputPaths.assets "output.assets_dir" = .ok o.assets ∧
      place s.sources s.root OutputPaths.sources "output.sources_dir" = .ok o.sources ∧
      place s.metadata s.root OutputPaths.metadata "output.metadata_file" = .ok o.metadata ∧
      distinctDirectories [] o.directories = .ok () := by
  rw [outputPaths] at h
  obtain ⟨resources, hresources, h⟩ := bind_eq_ok h
  obtain ⟨assets, hassets, h⟩ := bind_eq_ok h
  obtain ⟨sources, hsources, h⟩ := bind_eq_ok h
  obtain ⟨metadata, hmetadata, h⟩ := bind_eq_ok h
  obtain ⟨⟨⟩, hdistinct, h⟩ := bind_eq_ok h
  obtain rfl := Except.ok.inj h
  exact ⟨hresources, hassets, hsources, hmetadata, hdistinct⟩

/-- Under a root alone, output goes to the conventional places. -/
theorem eq_under_of_outputPaths {root : Path} {o : OutputPaths}
    (h : outputPaths { root := some root } = .ok o) : o = .under root := by
  have hplace (conventional : OutputPaths → Path) (setting : String) :
      place none (some root) conventional setting = .ok (conventional (.under root)) := rfl
  obtain ⟨hresources, hassets, hsources, hmetadata, -⟩ := outputPaths_eq_ok h
  rw [hplace] at hresources hassets hsources hmetadata
  cases o
  cases hresources
  cases hassets
  cases hsources
  cases hmetadata
  rfl

/-- Settings come to a configuration with their output. -/
theorem outputPaths_of_resolve {s : Settings} {c : Configuration} (h : s.resolve = .ok c) :
    outputPaths (s.output.getD {}) = .ok c.output :=
  (checked_of_resolve h).2

/-- What is left out defaults to something that passes every check. -/
theorem checked_least (own : SourceSet) (package : PackageName) (output : OutputPaths) :
    (least own package output).Checked (.ofDefaults own package output) where
  validated := rfl
  platform := ⟨"common", rfl, rfl⟩
  sourceSet := ⟨own.name.text, rfl, SourceSetName.ofText?_text own.name⟩
  ownResources := rfl
  package := ⟨package.text, rfl, PackageName.ofText?_text package⟩
  className := rfl
  visibility := rfl
  strictLineBreaks := rfl
  androidPackage := rfl
  android h := by cases h
  baseRegion := by
    show Locale.ofText? "en" = .ok (.tag ⟨"en", by decide⟩ none none)
    rfl
  baseRegion_ne_base h := by cases h
  upperSourceSets := .nil
  inputMetadata := rfl
  loadedFrom := rfl

theorem resolve_least (own : SourceSet) (package : PackageName) {output : OutputPaths}
    (h : distinctDirectories [] output.directories = .ok ()) :
    (least own package output).resolve = .ok (.ofDefaults own package output) :=
  resolve_eq_ok_iff.2 ⟨checked_least own package output, outputPaths_of_places h none⟩

end Settings

end ResourceCompiler
