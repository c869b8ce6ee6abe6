import ResourceCompiler.Text.Lowercase

/-!
# Platforms

What a pass produces for: nothing but metadata, or native resources of one platform.

## Main definitions

* `AppleTarget`: the native targets of the Apple family.
* `Platform`: the platforms.
* `Platform.ofSettings?`: the platform that a name and an optional Apple target stand for.
-/

namespace ResourceCompiler

/-- Why no platform can be told from the settings. -/
inductive PlatformError where
  | unknownPlatform (name : String)
  | missingAppleTarget
  | unknownAppleTarget (name : String)
  | unexpectedAppleTarget (platform : String)
  | missingSetting (platform setting : String)
deriving DecidableEq

/-- The wording of a fault. -/
def PlatformError.message : PlatformError → String
  | .unknownPlatform name =>
    "unknown platform '" ++ name ++ "', must be one of: common, android, apple, jvm, js, wasm"
  | .missingAppleTarget =>
    "platform 'apple' requires a native target (for example ios_arm64)"
  | .unknownAppleTarget name => "unknown apple target '" ++ name ++ "'"
  | .unexpectedAppleTarget platform =>
    "an apple target was given for platform '" ++ platform ++ "'"
  | .missingSetting platform setting =>
    "platform '" ++ platform ++ "' requires setting '" ++ setting ++ "'"

/-- The names of the native targets of the Apple family. -/
def appleTargets : List String := [
  "ios_arm64", "ios_x64", "ios_simulator_arm64", "macos_arm64", "macos_x64", "tvos_arm64",
  "tvos_x64", "tvos_simulator_arm64", "watchos_arm32", "watchos_arm64", "watchos_device_arm64",
  "watchos_x64", "watchos_simulator_arm64"]

/-- A native target of the Apple family. -/
abbrev AppleTarget := { name : String // name ∈ appleTargets }

/-- Reads the name of a target, in which the case of letters does not count. -/
def AppleTarget.ofText? (s : String) : Except PlatformError AppleTarget :=
  let name := Text.lowercase s
  if h : name ∈ appleTargets then .ok ⟨name, h⟩ else .error (.unknownAppleTarget name)

/-- What a pass produces for. -/
inductive Platform where
  /-- Metadata only, without native resources. -/
  | common
  | android
  | apple (target : AppleTarget)
  | jvm
  /-- JavaScript and WebAssembly. -/
  | js
deriving DecidableEq

namespace Platform

/-- The platform that a name and an optional Apple target stand for. The case of letters does not
count in the name. -/
def ofSettings? (name : String) (appleTarget : Option String) : Except PlatformError Platform :=
  let other (p : Platform) : Except PlatformError Platform :=
    if appleTarget.isSome then .error (.unexpectedAppleTarget name) else .ok p
  match Text.lowercase name with
  | "common" => other common
  | "android" => other android
  | "jvm" => other jvm
  | "js" => other js
  | "wasm" => other js
  | "apple" =>
    match appleTarget with
    | none => .error .missingAppleTarget
    | some target => (AppleTarget.ofText? target).map apple
  | _ => .error (.unknownPlatform name)

/-- The name that artifacts record. -/
def name : Platform → String
  | common => "common"
  | android => "android"
  | apple target => "apple:" ++ target.val
  | jvm => "jvm"
  | js => "js"

/-- Whether a pass for the platform produces metadata only. -/
def isCommon (p : Platform) : Bool := p == common

end Platform

end ResourceCompiler
