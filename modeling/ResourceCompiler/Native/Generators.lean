import ResourceCompiler.Native.AndroidTable
import ResourceCompiler.Native.AssetCatalog
import ResourceCompiler.Native.Holder
import ResourceCompiler.Native.JsonMap
import ResourceCompiler.OutputPaths
import ResourceCompiler.Platform

/-!
# Generators

What a platform makes of resources: output for the entries of each kind, and a holder for all
objects.

## Main definitions

* `GeneratorSettings`: what generators need to know.
* `Generators`, `Generators.ofPlatform`: the generators of a platform.
* `Generators.generateResources`: writes the output for the entries of all kinds.
-/

namespace ResourceCompiler.Native

/-- What generators need to know. -/
structure GeneratorSettings where
  package : PackageName
  className : ClassName
  androidPackage : Option PackageName
  baseRegion : Locale
  output : OutputPaths

/-- The generators of a platform. -/
structure Generators where
  resources : (k : Kind) → List (Entry k) → Plan
  holder : List ResourceObject → Plan

namespace Generators

/-- The generators of a platform that has no output. -/
def none : Generators := ⟨fun _ _ => [], fun _ => []⟩

/-- The generators of a platform. -/
def ofPlatform (s : GeneratorSettings) : Platform → Except PlatformError Generators
  | .common => .ok none
  | .android =>
    match s.androidPackage with
    | some package => .ok ⟨Android.plan package s.output.resources, fun _ => []⟩
    | Option.none => .error (.missingSetting "android" "android_r_class_package")
  | .apple _ =>
    .ok ⟨Apple.plan s.baseRegion s.output.resources s.output.assets,
      fun _ => Holder.bundleInfo s.package s.className s.baseRegion s.output.sources⟩
  | .jvm =>
    .ok ⟨Jvm.plan s.package s.className s.output.resources,
      Holder.descriptor s.package s.className s.output.sources⟩
  | .js => .ok ⟨Js.plan s.package s.output.resources, fun _ => []⟩

/-- The output for the entries of all kinds. -/
def resourcePlan (g : Generators) (resources : Resources) : Plan :=
  Kind.all.flatMap fun k => g.resources k (resources k)

/-- Writes the output for the entries of all kinds, and gives the paths, each place once. -/
def generateResources (g : Generators) (resources : Resources) :
    FileAction GenerateError (List Path) := do
  return distinctPaths (← (g.resourcePlan resources).perform)

/-- Writes the holder of all objects. -/
def generateHolder (g : Generators) (objects : List ResourceObject) :
    FileAction GenerateError (List Path) :=
  (g.holder objects).perform

end Generators

end ResourceCompiler.Native
