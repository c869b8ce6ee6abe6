import ResourceCompiler.Proofs.Config.Layers
import ResourceCompiler.Proofs.Defaults

/-!
# Where layers of settings put output

A layer gives an output its own path or, under its root, the conventional one. Of two layers the
upper one has the say, as far as it gives the output a place at all. An output that no layer gives a
place is missing, and the first one is reported.

* `Settings.location`, `Settings.location_overlay`: the place that layers give an output.
* `Settings.outputPaths_eq_missing_iff`: the output that is reported as missing.
* `Settings.output_precedence`: where the output of a file and of settings over it goes.
-/

namespace ResourceCompiler

namespace OutputPlace

/-- The outputs in the order in which they are looked at. -/
def all : List OutputPlace := [resources, assets, sources, metadata]

/-- The name of the setting for a path of its own. -/
def setting : OutputPlace → String
  | resources => "output.resources_dir"
  | assets => "output.assets_dir"
  | sources => "output.sources_dir"
  | metadata => "output.metadata_file"

/-- The conventional name below a root. -/
def conventional : OutputPlace → String
  | resources => "res"
  | assets => "assets"
  | sources => "src"
  | metadata => "metadata.json"

theorem setting_injective {x y : OutputPlace} (h : x.setting = y.setting) : x = y := by
  revert h
  cases x <;> cases y <;> decide

end OutputPlace

/-- The path of an output. -/
def OutputPaths.path (o : OutputPaths) : OutputPlace → Path
  | .resources => o.resources
  | .assets => o.assets
  | .sources => o.sources
  | .metadata => o.metadata

theorem OutputPaths.path_under (root : Path) (x : OutputPlace) :
    (under root).path x = root / x.conventional := by
  cases x <;> rfl

namespace OutputSettings

/-- The place that is given to an output: its own path, or else the conventional one. -/
def location (o : OutputSettings) (x : OutputPlace) : Option Path :=
  (o.own x).or (o.root.map (· / x.conventional))

theorem location_overlay (l u : OutputSettings) (x : OutputPlace) :
    (l.overlay u).location x = (u.location x).or (l.location x) := by
  rw [location, own_overlay, root_overlay, location, location]
  cases u.root with
  | none => simp [Option.or_assoc]
  | some r => simp

end OutputSettings

namespace Settings

/-! ### The places of one layer -/

/-- The place of an output is looked up in the same way for each of them. -/
theorem place_eq_required (o : OutputSettings) (x : OutputPlace) :
    place (o.own x) o.root (OutputPaths.path · x) x.setting =
      required x.setting (o.location x) := by
  simp only [place, OutputPaths.path_under]
  rfl

theorem outputPaths_eq (o : OutputSettings) : outputPaths o = (do
    let paths : OutputPaths :=
      { resources := ← required OutputPlace.resources.setting (o.location .resources)
        assets := ← required OutputPlace.assets.setting (o.location .assets)
        sources := ← required OutputPlace.sources.setting (o.location .sources)
        metadata := ← required OutputPlace.metadata.setting (o.location .metadata) }
    distinctDirectories [] paths.directories
    return paths) := by
  simp only [← place_eq_required]
  rfl

/-- Output goes to the places that are given to it. -/
theorem location_of_outputPaths {s : OutputSettings} {o : OutputPaths} (h : outputPaths s = .ok o)
    (x : OutputPlace) : s.location x = some (o.path x) := by
  obtain ⟨hresources, hassets, hsources, hmetadata, -⟩ := outputPaths_eq_ok h
  refine required_eq_ok_iff.1 ((place_eq_required s x).symm.trans ?_)
  cases x with
  | resources => exact hresources
  | assets => exact hassets
  | sources => exact hsources
  | metadata => exact hmetadata

/-- A place is looked for, and if there is none that is reported. -/
theorem required_eq_missing_iff {o : OutputSettings} {x y : OutputPlace} {rest : List OutputPlace}
    {next : Path → Check OutputPaths}
    (hnext : ∀ p, next p = .error (.missing y.setting) ↔
      rest.find? (fun z => (o.location z).isNone) = some y) :
    (required x.setting (o.location x) >>= next) = .error (.missing y.setting) ↔
      (x :: rest).find? (fun z => (o.location z).isNone) = some y := by
  rw [List.find?_cons]
  cases o.location x with
  | none =>
    show (Except.error (.missing x.setting) : Check OutputPaths) = .error (.missing y.setting) ↔
      some x = some y
    rw [Except.error.injEq, ConfigError.missing.injEq, Option.some.injEq]
    exact ⟨OutputPlace.setting_injective, congrArg _⟩
  | some p => exact hnext p

theorem distinctDirectories_ne_missing (earlier ds : List Path) (setting : String) :
    distinctDirectories earlier ds ≠ .error (.missing setting) := by
  induction ds generalizing earlier with
  | nil => exact fun h => by cases h
  | cons d rest ih =>
    rw [distinctDirectories]
    split
    · exact fun h => by cases h
    · exact ih _

/-- **The output that is reported as missing** is the first one without a place. -/
theorem outputPaths_eq_missing_iff (o : OutputSettings) (y : OutputPlace) :
    outputPaths o = .error (.missing y.setting) ↔
      OutputPlace.all.find? (fun x => (o.location x).isNone) = some y := by
  rw [outputPaths_eq]
  refine required_eq_missing_iff fun resources => required_eq_missing_iff fun assets =>
    required_eq_missing_iff fun sources => required_eq_missing_iff fun metadata => ?_
  -- where each output has a place, the most that can be wrong is that one is used twice
  refine iff_of_false (fun h => ?_) fun h => by cases h
  rcases bind_eq_error h with h | ⟨_, -, h⟩
  · exact distinctDirectories_ne_missing _ _ _ h
  · cases h

/-! ### The places of two layers -/

/-- The place that a layer gives an output. -/
def location (s : Settings) (x : OutputPlace) : Option Path := s.outputSettings.location x

/-- **The upper one of two layers has the say** about an output that it gives a place. -/
theorem location_overlay (a b : Settings) (x : OutputPlace) :
    (a.overlay b).location x = (b.location x).or (a.location x) := by
  rw [location, outputSettings_overlay]
  exact OutputSettings.location_overlay a.outputSettings b.outputSettings x

/-- **Where the output of a file and of settings over it goes.** Each output goes to the place that
the settings over the file give it, by a path of its own or by their root, and otherwise to the
place that the file gives it. If nothing but output can be wrong, then the output that is reported
as missing is the first one that neither of them gives a place. -/
theorem output_precedence (file upper : Settings) :
    (∀ c, (file.overlay upper).resolve = .ok c → ∀ x : OutputPlace,
      some (c.output.path x) = (upper.own x).or ((upper.outputRoot.map (· / x.conventional)).or
        ((file.own x).or (file.outputRoot.map (· / x.conventional))))) ∧
    ∀ output c, { file.overlay upper with output }.resolve = .ok c → ∀ x : OutputPlace,
      ((file.overlay upper).resolve = .error (.missing x.setting) ↔
        OutputPlace.all.find? (fun y => ((upper.location y).or (file.location y)).isNone) =
          some x) := by
  constructor
  · intro c h x
    have hplace := location_of_outputPaths (outputPaths_of_resolve h) x
    rw [← hplace, ← Option.or_assoc]
    exact location_overlay file upper x
  · intro output c h x
    -- the other settings pass their checks whatever is set for output
    have hchecked := (checked_of_resolve h).1.of_output (file.overlay upper).output c.output
    have hlocation (y : OutputPlace) :
        ((file.overlay upper).output.getD {}).location y =
          (upper.location y).or (file.location y) :=
      location_overlay file upper y
    simp only [← hlocation]
    exact hchecked.resolve_eq_error_iff.trans (outputPaths_eq_missing_iff _ x)

/-! ### A root over a file, and outputs left without a place -/

namespace Workshop

/-- The settings of a file, but for output. -/
def base : Settings :=
  least ⟨⟨"workshopMain", by decide⟩, ⟨"workshop"⟩⟩ ⟨"workshop", by decide⟩
    (.under ⟨"workshop/out"⟩)

/-- A file with a root and a path of its own. -/
def file : Settings :=
  { base with output := some { root := some ⟨"build"⟩, sources := some ⟨"generated"⟩ } }

/-- A root and a path laid over the file. -/
def upper : Settings :=
  { output := some { root := some ⟨"elsewhere"⟩, metadata := some ⟨"link.json"⟩ } }

/-- A file that gives two outputs no place. -/
def bare : Settings :=
  { base with output := some { resources := some ⟨"res"⟩, sources := some ⟨"generated"⟩ } }

end Workshop

theorem output_precedence_workshop :
    (∃ c, (Workshop.file.overlay Workshop.upper).resolve = .ok c ∧
      c.output.path .sources = ⟨"elsewhere/src"⟩ ∧ c.output.path .metadata = ⟨"link.json"⟩) ∧
      (∃ c, { Workshop.bare.overlay {} with output := Workshop.base.output }.resolve = .ok c) ∧
      (Workshop.bare.overlay {}).resolve = .error (.missing "output.assets_dir") := by
  have hchecked : Workshop.base.Checked _ := checked_least _ _ _
  have hover : (Workshop.file.overlay Workshop.upper).resolve = .ok _ :=
    resolve_eq_ok_iff.2 ⟨hchecked.of_output _
      ⟨⟨"elsewhere/res"⟩, ⟨"elsewhere/assets"⟩, ⟨"elsewhere/src"⟩, ⟨"link.json"⟩⟩, rfl⟩
  have hbare : { Workshop.bare.overlay {} with output := Workshop.base.output }.resolve = .ok _ :=
    resolve_least _ _ rfl
  obtain ⟨hplaces, -⟩ := output_precedence Workshop.file Workshop.upper
  obtain ⟨-, hmissing⟩ := output_precedence Workshop.bare {}
  exact ⟨⟨_, hover, Option.some.inj (hplaces _ hover .sources),
      Option.some.inj (hplaces _ hover .metadata)⟩,
    ⟨_, hbare⟩, (hmissing _ _ hbare .assets).2 rfl⟩

end Settings

end ResourceCompiler
