import ResourceCompiler.Command.Arguments
import ResourceCompiler.Command.Report
import ResourceCompiler.Config.Load
import ResourceCompiler.Pass.Run

/-!
# Commands at work

## Main definitions

* `Command.runGenerate`: a pass with its settings read from a file and from options.
* `Command.runInspect`: the contents of artifacts.
* `Command.run`: any command.
-/

namespace ResourceCompiler.Command

/-! ### Passes -/

/-- What is told of a pass that succeeded. -/
def passMessages (c : Configuration) (o : Outcome) : List Message :=
  let objects := o.artifact.objects
  [⟨.debug, "stages: " ++ Report.chain (Stage.all.map Stage.text)⟩]
    ++ (if objects.isEmpty then
        [⟨.warning, "no resources found for source set '" ++ c.sourceSet.text ++ "' in '"
          ++ c.ownResources.text ++ "'"⟩]
      else [])
    ++ [⟨.result, "Generated " ++ c.sourceSet.text ++ " (" ++ c.platform.name ++ "): "
          ++ toString objects.length ++ " objects, " ++ toString o.written.length ++ " files"⟩,
        ⟨.result, "  metadata: " ++ c.output.metadata.text⟩]

/-- Runs a pass. The settings come from a file, and from the given ones over it. -/
def runGenerate (environment settingsFile : Option Path) (overrides : Settings) (t : FileTree) :
    Report × FileTree :=
  match Configuration.load settingsFile environment overrides t with
  | .error e => (.failure [] (StageFailure.message ⟨.init, .config e⟩), t)
  | .ok c =>
    let opening := c.loadedFrom.toList.map fun p => ⟨.debug, "config: " ++ p.text⟩
    match c.run.run t with
    | (.error f, t) => (.failure opening f.message, t)
    | (.ok o, t) => (.success (opening ++ passMessages c o), t)

/-! ### Artifacts -/

/-- An artifact in a file by its origin and its objects. -/
def artifactSummary (path : Path) (a : Artifact) : Json :=
  .record [("path", .text path.text), ("source_set", .text a.sourceSet.text),
    ("platform", .text a.platform), ("fingerprint", .text a.fingerprint.text),
    ("objects", .array (a.objects.map ResourceObject.summary))]

/-- The lines that show an object: what it declares, and its keys. -/
def objectLines (o : ResourceObject) : List String :=
  ["  " ++ o.name ++ " [" ++ o.type.text ++ ", " ++ o.role.text ++ ", " ++ o.visibility.text ++ "]",
    Report.listing "    - " (o.values.map fun r => r.key.text)]

/-- The lines that show an artifact in a file. -/
def artifactLines (path : Path) (a : Artifact) : List String :=
  [path.text, "  source set:  " ++ a.sourceSet.text, "  platform:    " ++ a.platform,
    "  fingerprint: " ++ a.fingerprint.text]
    ++ (if a.objects.isEmpty then ["  (no objects)"] else [])
    ++ a.objects.flatMap objectLines

/-- Shows the contents of artifacts. -/
def runInspect (paths : List Path) (json : Bool) (t : FileTree) : Report :=
  match Store.readAll paths t with
  | .error e => .failure [] e.message
  | .ok artifacts =>
    let read := paths.zip artifacts
    if json then
      .success [⟨.data, String.ofList (Json.indented 0
        (.array (read.map fun (p, a) => artifactSummary p a)))⟩]
    else .success ((read.flatMap fun (p, a) => artifactLines p a).map fun line => ⟨.result, line⟩)

/-! ### Any command -/

/-- Runs a command on a file tree. Completion scripts are not part of what is told. -/
def run (environment : Option Path) (t : FileTree) : Command → Report × FileTree
  | generate settingsFile overrides => runGenerate environment settingsFile overrides t
  | inspect artifacts json => (runInspect artifacts json t, t)
  | completion _ => (.success [], t)

end ResourceCompiler.Command
