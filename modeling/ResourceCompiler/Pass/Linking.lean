import ResourceCompiler.Config.Configuration
import ResourceCompiler.Merge
import ResourceCompiler.Metadata.Artifact

/-!
# Linking

A pass builds upon the artifacts of earlier passes. Their entries are the least specific layer of
its own resources, and the objects that it assembles provide those that the artifacts declare.

## Main definitions

* `Artifact.fragment`: the entries of a kind that an artifact contributes.
* `mergeLinked`: entries merged over those of artifacts.
* `Configuration.roleOf`: what an object is to the artifacts linked.
* `Configuration.assemble`: the objects that hold merged resources.

## Main statements

* `roleOf_eq_actual_iff`: exactly the objects that an artifact holds are provided.
-/

namespace ResourceCompiler

/-- The entries of a kind that an artifact contributes: those of its objects. -/
def Artifact.fragment (k : Kind) (a : Artifact) : Fragment k :=
  ⟨a.sourceSet, (a.objects.flatMap ResourceObject.values).filterMap (Resource.ofKind? k)⟩

/-- The fragments of a kind merged over the entries of artifacts, in the order of these. -/
def mergeLinked {k : Kind} (linked : List Artifact) (own : List (Fragment k)) :
    Except MergeError (List (Entry k)) :=
  mergeFragments (linked.map (Artifact.fragment k) ++ own)

namespace Configuration

/-- The names of the objects that artifacts hold. -/
def linkedNames (linked : List Artifact) : List String :=
  linked.flatMap fun a => a.objects.map ResourceObject.name

/-- What an object is to the artifacts linked: it provides an object of the same name, or it is new,
and then a pass without native resources leaves it to be provided. -/
def roleOf (c : Configuration) (linked : List Artifact) (name : String) : Role :=
  if name ∈ linkedNames linked then .actual
  else if c.platform.isCommon then .expect
  else .plain

theorem roleOf_eq_actual_iff {c : Configuration} {linked : List Artifact} {name : String} :
    c.roleOf linked name = .actual ↔ ∃ a ∈ linked, ∃ o ∈ a.objects, o.name = name := by
  have h : name ∈ linkedNames linked ↔ ∃ a ∈ linked, ∃ o ∈ a.objects, o.name = name := by
    simp [linkedNames]
  rw [← h, roleOf]
  by_cases hm : name ∈ linkedNames linked
  · simp [hm]
  · by_cases hc : c.platform.isCommon <;> simp [hm, hc]

/-- The object that holds the entries of a kind. One that is new and would be empty is left out. -/
def objectOf? (c : Configuration) (linked : List Artifact) (k : Kind) (entries : List (Entry k)) :
    Option Container :=
  let name := c.objectName k
  let role := c.roleOf linked name
  if entries.isEmpty ∧ role ≠ .actual then none
  else some (.node name (.object k role c.visibility) (entries.map fun e => ⟨k, e⟩) [])

/-- The objects that hold merged resources, one for each kind. -/
def assemble (c : Configuration) (linked : List Artifact) (merged : Resources) : List Container :=
  Kind.all.filterMap fun k => c.objectOf? linked k (merged k)

end Configuration

end ResourceCompiler
