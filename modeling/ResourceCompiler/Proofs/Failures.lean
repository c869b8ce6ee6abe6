import ResourceCompiler.Proofs.Defaults
import ResourceCompiler.Proofs.FailedPass

/-!
# How passes fail

A failure is reported with the stage it occurred in, and the stage goes far to tell its class. A
pass can only fail at its start when its platform lacks a setting. Settings are checked for this
before they come to a configuration, so that such a pass gets past its start.

* `Native.Generators.exists_ofPlatform_iff`: when a platform has its generators.
* `Configuration.Failure.mem_classes`: the classes of failures past the start of a pass.
* `Settings.failure_of_resolve`: the failures of a pass that comes from settings.
-/

namespace ResourceCompiler

/-- **A platform has its generators** unless it needs a package for its resources and has none. -/
theorem Native.Generators.exists_ofPlatform_iff (s : GeneratorSettings) (platform : Platform) :
    (∃ g, ofPlatform s platform = .ok g) ↔
      (platform = .android → s.androidPackage ≠ Option.none) := by
  cases platform with
  | android =>
    rw [ofPlatform]
    cases s.androidPackage <;> simp
  | _ => simp [ofPlatform]

namespace StageFailure

/-- The stages that can fail, each with the classes of its failures. The last one is that of an
artifact that cannot be brought into text; where all paths are texts, that does not happen. -/
def classes : List (Stage × Category) :=
  [(.collect, .linking), (.collect, .output), (.collect, .input), (.build, .input),
    (.merge, .input), (.generateNative, .generation), (.generateContainer, .generation),
    (.persist, .output), (.persist, .generation)]

/-- None of these is at the start or the end of a pass, or for its configuration. -/
theorem ne_of_mem_classes {f : StageFailure} (h : (f.stage, f.category) ∈ classes) :
    f.stage ≠ .init ∧ f.stage ≠ .done ∧ f.category ≠ .configuration := by
  have hall : ∀ x ∈ classes, x.1 ≠ .init ∧ x.1 ≠ .done ∧ x.2 ≠ .configuration := by decide
  exact hall _ h

end StageFailure

namespace Configuration

variable {c : Configuration} {f : StageFailure} {s t : FileTree}

/-- Past its start a pass fails in one of the classes of its stages. -/
theorem Failure.mem_classes (h : c.Failure t f s)
    (hstart : ∃ g, Native.Generators.ofPlatform c.generatorSettings c.platform = .ok g) :
    (f.stage, f.category) ∈ StageFailure.classes := by
  cases h with
  | generators h =>
    obtain ⟨g, hg⟩ := hstart
    cases hg.symm.trans h
  | linking | clearing | collecting | building | merging | native | holder | storing =>
    simp [StageFailure.classes, StageFailure.category, PassError.category]

end Configuration

/-- **The failures of a pass that comes from settings.** Its platform has its generators, so that it
gets past its start. If it fails, then in one of its stages while those before it have succeeded,
and this is reported with the stage and with one of the classes that belong to it. -/
theorem Settings.failure_of_resolve {s : Settings} {c : Configuration} (h : s.resolve = .ok c) :
    (∃ g, Native.Generators.ofPlatform c.generatorSettings c.platform = .ok g) ∧
      ∀ t f, (c.run.run t).1 = .error f →
        (∃ u, c.Failure t f u) ∧ (f.stage, f.category) ∈ StageFailure.classes ∧
          f.stage ≠ .init ∧ f.stage ≠ .done ∧ f.category ≠ .configuration := by
  have hstart : ∃ g, Native.Generators.ofPlatform c.generatorSettings c.platform = .ok g :=
    (Native.Generators.exists_ofPlatform_iff _ _).2 (checked_of_resolve h).1.android
  refine ⟨hstart, fun t f hrun => ?_⟩
  have hfailure : c.Failure t f (c.execute.run t).2 :=
    Configuration.failure_of_execute (Prod.ext (Configuration.run_eq_error hrun).1 rfl)
  have hclass := hfailure.mem_classes hstart
  exact ⟨⟨_, hfailure⟩, hclass, StageFailure.ne_of_mem_classes hclass⟩

/-! ### An artifact that is missing -/

namespace Meadow

def own : SourceSet := ⟨⟨"meadowMain", by decide⟩, ⟨"meadow"⟩⟩

def package : PackageName := ⟨"meadow", by decide⟩

/-- Settings for Android resources that build upon an artifact. -/
def settings : Settings :=
  { Settings.least own package (.under ⟨"meadow/out"⟩) with
    platform := some "android"
    androidPackage := some "meadow.app"
    inputMetadata := some [⟨"meadow/prior.json"⟩] }

def config : Configuration :=
  { Configuration.ofDefaults own package (.under ⟨"meadow/out"⟩) with
    platform := .android
    androidPackage := some ⟨"meadow.app", by decide⟩
    inputMetadata := [⟨"meadow/prior.json"⟩] }

theorem checked : settings.Checked config :=
  { Settings.checked_least own package (.under ⟨"meadow/out"⟩) with
    platform := ⟨"android", rfl, rfl⟩
    androidPackage := ⟨⟨"meadow.app", by decide⟩, rfl, rfl⟩
    android := fun _ h => by cases h
    inputMetadata := rfl }

end Meadow

/-- The pass fails where it links the artifact. -/
theorem Settings.failure_of_resolve_meadow :
    Meadow.settings.resolve = .ok Meadow.config ∧
      (Meadow.config.run.run .empty).1 =
        .error ⟨.collect, .link (.unreadable ⟨"meadow/prior.json"⟩ .notFound)⟩ ∧
      (Stage.collect, Category.linking) ∈ StageFailure.classes := by
  have hresolve : Meadow.settings.resolve = .ok Meadow.config :=
    resolve_eq_ok_iff.2 ⟨Meadow.checked, outputPaths_of_places rfl none⟩
  have hrun : (Meadow.config.run.run .empty).1 =
      .error ⟨.collect, .link (.unreadable ⟨"meadow/prior.json"⟩ .notFound)⟩ := by
    rw [Configuration.run_run]
    rfl
  obtain ⟨-, hfailure⟩ := failure_of_resolve hresolve
  obtain ⟨-, hclass, -⟩ := hfailure _ _ hrun
  exact ⟨hresolve, hrun, hclass⟩

end ResourceCompiler
