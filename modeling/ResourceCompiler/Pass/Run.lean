import ResourceCompiler.Native.Generators
import ResourceCompiler.Pass.Failure
import ResourceCompiler.Pass.Linking
import ResourceCompiler.Source.Build

/-!
# Passes

A pass reads the artifacts it links and the resource files of its source sets, merges their entries,
writes native output and, last of all, its own artifact. Linked artifacts are read before the output
is cleared, so that they may lie among it. A pass that fails leaves its output cleared.

## Main definitions

* `Outcome`: the result of a pass.
* `Configuration.buildAll`, `Configuration.mergeAll`: the fragments and merged entries of all kinds.
* `Configuration.execute`: the stages of a pass.
* `Configuration.run`: a pass.
-/

namespace ResourceCompiler

open Native (GeneratorSettings Generators)

/-- The result of a pass. -/
structure Outcome where
  artifact : Artifact
  /-- The files of native output, in the order in which they were written. -/
  written : List Path

/-- An action of a stage, with the cause of its failure. -/
def Stage.perform {ε α : Type} (s : Stage) (cause : ε → PassError) (x : FileAction ε α) :
    FileAction StageFailure α :=
  x.mapError fun e => ⟨s, cause e⟩

namespace Configuration

/-- What generators need to know. -/
def generatorSettings (c : Configuration) : GeneratorSettings where
  package := c.package
  className := c.className
  androidPackage := c.androidPackage
  baseRegion := c.baseRegion
  output := c.output

/-- The fragments of every kind, one for each source set. -/
def buildAll (strict : Bool) (collected : List Source.Collected) (t : FileTree) :
    Except Source.SourceError ((k : Kind) → List (Fragment k)) :=
  Kind.traverse fun k => collected.mapM fun s => do
    return ⟨s.sourceSet.name,
      ← Source.build strict s.sourceSet.name s.sourceSet.root (s.files k) t k⟩

/-- The merged entries of every kind. -/
def mergeAll (linked : List Artifact) (built : (k : Kind) → List (Fragment k)) :
    Except MergeError Resources :=
  Kind.traverse fun k => mergeLinked linked (built k)

/-- The stages of a pass. -/
def execute (c : Configuration) : FileAction StageFailure Outcome := do
  let generators ← Stage.init.perform .platform
    (.ofExcept (Generators.ofPlatform c.generatorSettings c.platform))
  let linked ← Stage.collect.perform .link (.examine (Store.readAll c.inputMetadata))
  Stage.collect.perform (.output c.output.resources) c.output.clear
  let collected ← Stage.collect.perform .scan (.examine (Source.collect c.byPrecedence))
  let built ← Stage.build.perform .build (.examine (buildAll c.strictLineBreaks collected))
  let merged ← Stage.merge.perform .merge (.ofExcept (mergeAll linked built))
  let containers := c.assemble linked merged
  let native ← Stage.generateNative.perform .generate (generators.generateResources merged)
  let holder ← Stage.generateContainer.perform .generate
    (generators.generateHolder (Container.objects containers))
  let artifact := Artifact.ofContainers c.sourceSet c.platform.name containers
  Stage.persist.perform .persist (Store.write c.output.metadata artifact)
  return ⟨artifact, native ++ holder⟩

/-- A pass. When a stage fails, the output is cleared as far as possible. -/
def run (c : Configuration) : FileAction StageFailure Outcome := do
  match ← c.execute.attempt with
  | .ok outcome => return outcome
  | .error failure =>
    let _ ← c.output.clear.attempt
    FileAction.fail failure

end Configuration

end ResourceCompiler
