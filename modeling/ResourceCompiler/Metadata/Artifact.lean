import ResourceCompiler.Digest
import ResourceCompiler.Json.Reader
import ResourceCompiler.Metadata.Decoding
import ResourceCompiler.Metadata.Encoding

/-!
# Artifacts

The result of a pass as it is kept for later passes: the containers with the source set and platform
they come from, sealed with a fingerprint of the containers.

## Main definitions

* `Artifact`, `Artifact.ofContainers`: artifacts, and the sealing of containers.
* `Artifact.validate`: the fingerprint and the structure of the containers are right.
* `Artifact.text`: the text that is kept.
* `Artifact.ofText?`: reads such a text. What the text says it is comes first, before anything else
  in it is looked at.
-/

namespace ResourceCompiler

/-- The digest of a text, as hexadecimal digits. -/
structure Fingerprint where
  text : String
deriving DecidableEq

/-- The fingerprint of a sequence of bytes. -/
def Fingerprint.ofBytes (bytes : ByteArray) : Fingerprint :=
  ⟨String.ofList ((Digest.sha256 bytes.toList).flatMap Text.hexByte)⟩

/-- A fault in an artifact. -/
inductive MetadataError where
  | unreadable (error : DecodeError)
  | wrongKind (found : String)
  | unsupportedVersion (version : Nat)
  | fingerprintMismatch (recorded computed : Fingerprint)
  | structure (error : ContainerError)
deriving DecidableEq

/-- The merged resources of a pass with their origin and seal. -/
structure Artifact where
  sourceSet : SourceSetName
  platform : String
  fingerprint : Fingerprint
  containers : List Container

namespace Artifact

/-- What an artifact says it is. -/
def kindName : String := "polyres.resource-metadata"

/-- The version of the schema. -/
def schemaVersion : Nat := 1

end Artifact

/-- The wording of a fault in the structure of containers. -/
def ContainerError.message : ContainerError → String
  | .kindMismatch container key expected found =>
    "container '" ++ container ++ "' holds " ++ found.text ++ " entry '" ++ key.text
      ++ "' but is declared as " ++ expected.text
  | .duplicateKey container key =>
    "container '" ++ container ++ "' declares key '" ++ key.text ++ "' more than once"

/-- The wording of a fault. -/
def MetadataError.message : MetadataError → String
  | .unreadable error => "failed to parse metadata: " ++ error.message
  | .wrongKind found => "invalid kind '" ++ found ++ "', expected '" ++ Artifact.kindName ++ "'"
  | .unsupportedVersion version =>
    "unsupported schema version " ++ toString version ++ ", supported: "
      ++ toString Artifact.schemaVersion
  | .fingerprintMismatch recorded computed =>
    "fingerprint mismatch: recorded " ++ recorded.text ++ ", computed " ++ computed.text
  | .structure error => error.message

namespace Artifact

/-- The fingerprint of containers, taken of their compact text. -/
def fingerprintOf (containers : List Container) : Fingerprint :=
  .ofBytes (Container.canonical containers).toUTF8

/-- Containers with their origin and the fingerprint that seals them. -/
def ofContainers (sourceSet : SourceSetName) (platform : String) (containers : List Container) :
    Artifact :=
  ⟨sourceSet, platform, fingerprintOf containers, containers⟩

/-- Checks the seal, then the structure of the containers. -/
def validate (a : Artifact) : Except MetadataError Unit :=
  let computed := fingerprintOf a.containers
  if computed = a.fingerprint then (Container.validate a.containers).mapError .structure
  else .error (.fingerprintMismatch a.fingerprint computed)

/-- The objects of an artifact, depth first. -/
def objects (a : Artifact) : List ResourceObject := Container.objects a.containers

/-! ### The text of an artifact -/

/-- An artifact as an object. -/
def toJson (a : Artifact) : Json :=
  .record [("kind", .text kindName), ("schema_version", .natural schemaVersion),
    ("source_set", .text a.sourceSet.text), ("platform", .text a.platform),
    ("fingerprint", .text a.fingerprint.text),
    ("containers", .array (Container.toJsonAll a.containers))]

/-- The text that is kept. -/
def text (a : Artifact) : String := Json.document a.toJson

/-- A number that fits 32 bits. -/
def version : Json → Decode.Result Nat
  | .number written =>
    match Json.natural? written with
    | some n => if n < Nat.pow 2 32 then .ok n else .error .malformed
    | none => .error .malformed
  | _ => .error .malformed

/-- What a text says it is: its kind and the version of its schema. Other members are passed
over. -/
def envelope (j : Json) : Decode.Result (String × Nat) := do
  let names := ["kind", "schema_version"]
  let own := match j with
    | .object ms => .object (ms.filter fun m => m.1.all (· ∈ names))
    | j => j
  let (kind, v) ← Decode.record names (fun name value (kind, v) => do
    if name = "kind" then return (some (← Decode.text value), v)
    else return (kind, some (← version value))) (none, none) own
  return (← Decode.required kind, ← Decode.required v)

/-- The members of an artifact that have been read. -/
structure Parts where
  kind : Option String := none
  version : Option Nat := none
  sourceSet : Option SourceSetName := none
  platform : Option String := none
  fingerprint : Option Fingerprint := none
  containers : Option (List Container) := none

/-- Puts a member of an artifact to those that have been read. -/
def Parts.put (member : String) (v : Json) (parts : Parts) : Decode.Result Parts := do
  match member with
  | "kind" => return { parts with kind := some (← Decode.text v) }
  | "schema_version" => return { parts with version := some (← Artifact.version v) }
  | "source_set" =>
    return { parts with sourceSet := some (← Decode.parsed SourceSetName.ofText? v) }
  | "platform" => return { parts with platform := some (← Decode.text v) }
  | "fingerprint" => return { parts with fingerprint := some ⟨← Decode.text v⟩ }
  | _ => return { parts with containers := some (← Decode.containers 2 v) }

/-- The names of the members of an artifact. -/
def memberNames : List String :=
  ["kind", "schema_version", "source_set", "platform", "fingerprint", "containers"]

/-- An artifact of the current schema. -/
def ofJson (j : Json) : Decode.Result Artifact := do
  let p ← Decode.record memberNames Parts.put {} j
  let _ ← Decode.required p.kind
  let _ ← Decode.required p.version
  return ⟨← Decode.required p.sourceSet, ← Decode.required p.platform,
    ← Decode.required p.fingerprint, ← Decode.required p.containers⟩

/-- Reads and checks the text of an artifact. -/
def ofText? (s : String) : Except MetadataError Artifact := do
  let j ← (Decode.required (Json.read s)).mapError .unreadable
  let (kind, v) ← (envelope j).mapError .unreadable
  if kind ≠ kindName then throw (.wrongKind kind)
  if v ≠ schemaVersion then throw (.unsupportedVersion v)
  let a ← (ofJson j).mapError .unreadable
  a.validate
  return a

theorem validate_ofContainers (sourceSet : SourceSetName) (platform : String)
    (containers : List Container) :
    (ofContainers sourceSet platform containers).validate =
      (Container.validate containers).mapError .structure := by
  simp [validate, ofContainers]

end Artifact

/-- Reads the text of a list of containers. -/
def Container.listOfText? (s : String) : Decode.Result (List Container) := do
  Decode.containers 1 (← Decode.required (Json.read s))

end ResourceCompiler
