import ResourceCompiler.Config.Configuration
import ResourceCompiler.Merge
import ResourceCompiler.Metadata.Store
import ResourceCompiler.Native.Plan
import ResourceCompiler.Source.Collect
import ResourceCompiler.Source.Error

/-!
# Failures of a pass

A failure is reported with the stage it occurred in and the broad class that its cause belongs to.

## Main definitions

* `Stage`, `Category`: stages and classes of failure.
* `PassError`: the causes.
* `StageFailure`: a cause with its stage.
-/

namespace ResourceCompiler

/-- The stages of a pass. -/
inductive Stage where
  | init
  | collect
  | build
  | merge
  | generateNative
  | generateContainer
  | persist
  | done
deriving DecidableEq

namespace Stage

/-- The stages in the order in which a pass enters them. -/
def all : List Stage :=
  [init, collect, build, merge, generateNative, generateContainer, persist, done]

/-- The written form. -/
def text : Stage → String
  | init => "init"
  | collect => "collect"
  | build => "build"
  | merge => "merge"
  | generateNative => "generate-native"
  | generateContainer => "generate-container"
  | persist => "persist"
  | done => "done"

end Stage

/-- The classes of failure. -/
inductive Category where
  /-- Resource files are malformed or contradict each other. -/
  | input
  /-- Metadata to be linked cannot be used. -/
  | linking
  /-- A platform cannot represent the resources. -/
  | generation
  /-- Settings are missing or contradict each other. -/
  | configuration
  /-- Output cannot be written. -/
  | output
deriving DecidableEq

/-- The written form. -/
def Category.text : Category → String
  | input => "input"
  | linking => "linking"
  | generation => "generation"
  | configuration => "configuration"
  | output => "output"

/-- The causes of failure. -/
inductive PassError where
  | config (error : ConfigError)
  | platform (error : PlatformError)
  | link (error : StoreError)
  | output (directory : Path) (error : FileError)
  | scan (error : Source.ScanError)
  | build (error : Source.SourceError)
  | merge (error : MergeError)
  | generate (error : Native.GenerateError)
  | persist (error : StoreError)
deriving DecidableEq

namespace PassError

/-- The class that a cause belongs to. -/
def category : PassError → Category
  | config _ => .configuration
  | platform _ => .configuration
  | link _ => .linking
  | output _ _ => .output
  | scan _ => .input
  | build _ => .input
  | merge _ => .input
  | generate _ => .generation
  | persist _ => .output

/-- The wording of a cause. -/
def message : PassError → String
  | config error => error.message
  | platform error => error.message
  | link error => "cannot link against prior metadata: " ++ error.message
  | output directory error =>
    "failed to prepare output '" ++ directory.text ++ "': " ++ error.message
  | scan error => error.message
  | build error => error.message
  | merge error => error.message
  | generate error => error.message
  | persist error => "failed to persist metadata: " ++ error.message

end PassError

/-- A failure of a pass. -/
structure StageFailure where
  stage : Stage
  error : PassError
deriving DecidableEq

namespace StageFailure

/-- The class that the cause belongs to. -/
def category (f : StageFailure) : Category := f.error.category

/-- The wording of a failure. -/
def message (f : StageFailure) : String :=
  "[" ++ f.category.text ++ "] " ++ f.stage.text ++ " failed: " ++ f.error.message

end StageFailure

end ResourceCompiler
