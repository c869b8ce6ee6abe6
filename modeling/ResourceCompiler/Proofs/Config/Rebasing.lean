import ResourceCompiler.Proofs.Config.Layers
import ResourceCompiler.Proofs.Naming

/-!
# Settings read from a directory

The paths in settings are read from the directory of the file that the settings stand in. This works
on each path by itself: it does not matter whether layers are put together first, nothing but paths
changes, and behind an absolute directory no path is relative.

* `Path.join_join_iff`: the directories from which paths can be read twice.
* `Settings.mapPaths`, `Settings.mapPaths_overlay`: a change of all paths, path by path.
* `Settings.paths`, `Settings.shape`: the paths in settings, and all else.
* `Settings.rebase_laws`: what reading paths from a directory does to settings.
-/

namespace ResourceCompiler

/-! ### Joining twice -/

namespace Path

variable {d q : Path}

theorem length_lt_length_join (hd : d ≠ ⟨""⟩) (hq : q.isAbsolute = false) :
    q.text.length < (d.join q).text.length := by
  have hpos : 0 < d.text.length := by
    rw [Nat.pos_iff_ne_zero, Ne, String.length_eq_zero_iff]
    exact fun h => hd (by cases d; cases h; rfl)
  rw [text_join d hq]
  split
  · rw [String.length_append]
    omega
  · rw [String.length_append, String.length_append]
    omega

/-- **Paths can be read from a directory twice** exactly if the directory is absolute or empty: a
second reading from any other one goes down again. -/
theorem join_join_iff : (∀ q : Path, d.join (d.join q) = d.join q) ↔
    d.isAbsolute = true ∨ d = ⟨""⟩ := by
  constructor
  · intro h
    by_contra hd
    obtain ⟨habsolute, hempty⟩ := not_or.1 hd
    have hrelative : (d.join ⟨""⟩).isAbsolute = false := by
      rw [isAbsolute_join d rfl]
      exact Bool.eq_false_iff.2 habsolute
    have hlt := length_lt_length_join hempty hrelative
    rw [h ⟨""⟩] at hlt
    exact Nat.lt_irrefl _ hlt
  · rintro (h | rfl) q
    · exact join_of_isAbsolute d (isAbsolute_join_of_left h q)
    · rw [empty_join, empty_join]

end Path

/-! ### Changing all paths -/

namespace OutputSettings

/-- Output settings with each path changed. -/
def mapPaths (g : Path → Path) (o : OutputSettings) : OutputSettings where
  root := o.root.map g
  resources := o.resources.map g
  assets := o.assets.map g
  sources := o.sources.map g
  metadata := o.metadata.map g

theorem own_mapPaths (g : Path → Path) (o : OutputSettings) (x : OutputPlace) :
    (o.mapPaths g).own x = (o.own x).map g := by
  cases x <;> rfl

theorem mapPaths_overlay (g : Path → Path) (l u : OutputSettings) :
    (l.overlay u).mapPaths g = (l.mapPaths g).overlay (u.mapPaths g) := by
  refine ext_own ?_ fun x => ?_
  · show (l.overlay u).root.map g = _
    rw [root_overlay, root_overlay, Option.map_or]
    rfl
  · have hroot : (u.mapPaths g).root.isSome = u.root.isSome := Option.isSome_map
    rw [own_mapPaths, own_overlay, own_overlay, own_mapPaths, own_mapPaths, hroot, Option.map_or]
    cases u.root.isSome <;> rfl

theorem mapPaths_mapPaths (g h : Path → Path) (o : OutputSettings) :
    (o.mapPaths g).mapPaths h = o.mapPaths (h ∘ g) := by
  simp only [mapPaths, Option.map_map]

/-- The paths in output settings. -/
def paths (o : OutputSettings) : List Path :=
  [o.root, o.resources, o.assets, o.sources, o.metadata].filterMap id

theorem paths_mapPaths (g : Path → Path) (o : OutputSettings) :
    (o.mapPaths g).paths = o.paths.map g := by
  rw [paths, paths, List.map_filterMap]
  show List.filterMap id
    ([o.root, o.resources, o.assets, o.sources, o.metadata].map (Option.map g)) = _
  rw [List.filterMap_map]
  rfl

end OutputSettings

namespace Settings

/-- Settings with each path changed. -/
def mapPaths (g : Path → Path) (s : Settings) : Settings :=
  { s with
    ownResources := s.ownResources.map g
    upperSourceSets := s.upperSourceSets.map (List.map fun u => { u with path := g u.path })
    inputMetadata := s.inputMetadata.map (List.map g)
    output := s.output.map (OutputSettings.mapPaths g) }

theorem mapPaths_overlay (g : Path → Path) (a b : Settings) :
    (a.overlay b).mapPaths g = (a.mapPaths g).overlay (b.mapPaths g) := by
  have houtput : ((a.overlay b).mapPaths g).output =
      ((a.mapPaths g).overlay (b.mapPaths g)).output := by
    show (a.overlay b).output.map (OutputSettings.mapPaths g) = _
    rw [output_overlay, output_overlay]
    show _ = Option.merge OutputSettings.overlay (a.output.map (OutputSettings.mapPaths g))
      (b.output.map (OutputSettings.mapPaths g))
    cases a.output <;> cases b.output <;> simp [Option.merge, OutputSettings.mapPaths_overlay]
  unfold mapPaths overlay at houtput ⊢
  simp only [Option.map_or, Settings.mk.injEq, true_and]
  exact houtput

theorem mapPaths_mapPaths (g h : Path → Path) (s : Settings) :
    (s.mapPaths g).mapPaths h = s.mapPaths (h ∘ g) := by
  have houtput : OutputSettings.mapPaths h ∘ OutputSettings.mapPaths g =
      OutputSettings.mapPaths (h ∘ g) := funext (OutputSettings.mapPaths_mapPaths g h)
  simp only [mapPaths, Option.map_map, houtput, List.map_comp_map]
  rfl

/-! ### What settings hold -/

/-- The paths in settings, in a fixed order. -/
def paths (s : Settings) : List Path :=
  s.ownResources.toList ++ (s.upperSourceSets.getD []).map UpperSettings.path ++
    s.inputMetadata.getD [] ++ (s.output.getD {}).paths

/-- Settings with each path left blank: what they hold besides paths, which paths there are, and in
which order lists are. -/
def shape (s : Settings) : Settings :=
  { s with
    ownResources := s.ownResources.map fun _ => ⟨""⟩
    upperSourceSets := s.upperSourceSets.map (List.map fun u => ⟨u.name, ⟨""⟩⟩)
    inputMetadata := s.inputMetadata.map (List.map fun _ => ⟨""⟩)
    output := s.output.map fun o =>
      { root := o.root.map fun _ => ⟨""⟩
        resources := o.resources.map fun _ => ⟨""⟩
        assets := o.assets.map fun _ => ⟨""⟩
        sources := o.sources.map fun _ => ⟨""⟩
        metadata := o.metadata.map fun _ => ⟨""⟩ } }

theorem shape_mapPaths (g : Path → Path) (s : Settings) : (s.mapPaths g).shape = s.shape :=
  mapPaths_mapPaths g (fun _ => ⟨""⟩) s

theorem paths_mapPaths (g : Path → Path) (s : Settings) : (s.mapPaths g).paths = s.paths.map g := by
  have hown : (s.mapPaths g).ownResources.toList = s.ownResources.toList.map g := by
    show (s.ownResources.map g).toList = _
    cases s.ownResources <;> rfl
  have huppers : ((s.mapPaths g).upperSourceSets.getD []).map UpperSettings.path =
      ((s.upperSourceSets.getD []).map UpperSettings.path).map g := by
    show ((s.upperSourceSets.map (List.map _)).getD []).map UpperSettings.path = _
    cases s.upperSourceSets with
    | none => rfl
    | some uppers => simp only [Option.map_some, Option.getD_some, List.map_map]; rfl
  have hinput : (s.mapPaths g).inputMetadata.getD [] = (s.inputMetadata.getD []).map g := by
    show (s.inputMetadata.map (List.map g)).getD [] = _
    cases s.inputMetadata <;> rfl
  have houtput : ((s.mapPaths g).output.getD {}).paths = ((s.output.getD {}).paths).map g := by
    show ((s.output.map (OutputSettings.mapPaths g)).getD {}).paths = _
    cases s.output with
    | none => rfl
    | some o => exact OutputSettings.paths_mapPaths g o
  rw [paths, hown, huppers, hinput, houtput, paths, List.map_append, List.map_append,
    List.map_append]

/-! ### Reading paths from a directory -/

theorem rebase_eq (d : Path) (s : Settings) : s.rebase d = s.mapPaths d.join := rfl

/-- Settings can be read from a directory twice exactly if each path can. -/
theorem rebase_rebase_iff (d : Path) : (∀ a : Settings, (a.rebase d).rebase d = a.rebase d) ↔
    d.isAbsolute = true ∨ d = ⟨""⟩ := by
  rw [← Path.join_join_iff]
  constructor
  · intro h q
    have hown := congrArg ownResources (h { ownResources := some q })
    exact Option.some.inj hown
  · intro h a
    rw [rebase_eq, rebase_eq, mapPaths_mapPaths]
    exact congrArg (mapPaths · a) (funext h)

/-- **What reading paths from a directory does to settings.** Layers may be put together before or
after it. It may be done twice exactly if the directory is absolute or empty. Each path is read from
the directory, and nothing else is changed: no other setting, no order of a list, and nothing that
is left out. Behind an absolute directory all paths are absolute. -/
theorem rebase_laws (d : Path) :
    (∀ a b : Settings, (a.overlay b).rebase d = (a.rebase d).overlay (b.rebase d)) ∧
      ((∀ a : Settings, (a.rebase d).rebase d = a.rebase d) ↔ d.isAbsolute = true ∨ d = ⟨""⟩) ∧
      ∀ a : Settings, (a.rebase d).shape = a.shape ∧ (a.rebase d).paths = a.paths.map d.join ∧
        (d.isAbsolute = true → ∀ p ∈ (a.rebase d).paths, p.isAbsolute = true) := by
  refine ⟨mapPaths_overlay d.join, rebase_rebase_iff d, fun a => ?_⟩
  have hpaths : (a.rebase d).paths = a.paths.map d.join := paths_mapPaths d.join a
  refine ⟨shape_mapPaths d.join a, hpaths, fun habsolute p hp => ?_⟩
  rw [hpaths] at hp
  obtain ⟨q, -, rfl⟩ := List.mem_map.1 hp
  exact Path.isAbsolute_join_of_left habsolute q

/-- Settings of a file, with one path that is absolute already. -/
def ofProject : Settings where
  sourceSet := "projectMain"
  ownResources := some ⟨"resources"⟩
  upperSourceSets := some [⟨"sharedMain", ⟨"../shared"⟩⟩, ⟨"projectTest", ⟨""⟩⟩]
  inputMetadata := some [⟨"/prior/metadata.json"⟩]
  output := some { root := some ⟨"build"⟩ }

theorem rebase_laws_project :
    (⟨"/project"⟩ : Path).isAbsolute = true ∧
      (ofProject.rebase ⟨"/project"⟩).paths = [⟨"/project/resources"⟩, ⟨"/project/../shared"⟩,
        ⟨"/project/"⟩, ⟨"/prior/metadata.json"⟩, ⟨"/project/build"⟩] ∧
      (∀ p ∈ (ofProject.rebase ⟨"/project"⟩).paths, p.isAbsolute = true) ∧
      (ofProject.rebase ⟨"/project"⟩).rebase ⟨"/project"⟩ = ofProject.rebase ⟨"/project"⟩ := by
  have habsolute : (⟨"/project"⟩ : Path).isAbsolute = true := by decide
  obtain ⟨-, htwice, hall⟩ := rebase_laws ⟨"/project"⟩
  obtain ⟨-, hpaths, hbehind⟩ := hall ofProject
  refine ⟨habsolute, ?_, hbehind habsolute, htwice.2 (.inl habsolute) ofProject⟩
  rw [hpaths]
  decide

end Settings

end ResourceCompiler
