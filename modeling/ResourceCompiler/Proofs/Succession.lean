import ResourceCompiler.Proofs.Defaults
import ResourceCompiler.Proofs.Metadata.Storing
import ResourceCompiler.Proofs.Retention
import ResourceCompiler.Proofs.Source.Plurals
import ResourceCompiler.Proofs.Stages

/-!
# Passes that build upon each other

Passes link the artifacts of earlier passes, whose entries come from resource files and from still
earlier artifacts. What is checked of a resource file once holds of all these artifacts.

* `Entry.Complete`, `Container.IsObjectOf`, `Artifact.WellMade`: what artifacts of passes are like.
* `complete_of_mergeAll`: merging complete entries gives complete entries.
* `Configuration.wellMade_of_run`: a pass that links well-made artifacts makes one.
* `Succession`, `Succession.wellMade`: passes one after the other.
-/

namespace ResourceCompiler

open FileAction FileTree

/-! ### Well-made artifacts -/

/-- An entry that lacks nothing: it has a value for a locale or scale, and a plural has a form for
every number in each of its locales. -/
structure Entry.Complete {k : Kind} (e : Entry k) : Prop where
  qualified : k ≠ .colors → e.qualifiers ≠ []
  covers : k.Covers e.value

/-- An object of a kind with nothing below it, which holds complete entries, each key once. -/
def Container.IsObjectOf (k : Kind) (d : Container) : Prop :=
  ∃ (name : String) (role : Role) (visibility : Visibility) (es : List (Entry k)),
    d = .node name (.object k role visibility) (es.map fun e => ⟨k, e⟩) [] ∧
      (es.map Entry.key).Nodup ∧ ∀ e ∈ es, e.Complete

/-- What the artifact of a pass is like: it is sound, it reads back, and it consists of objects, at
most one of each kind, in the order of the kinds. -/
structure Artifact.WellMade (a : Artifact) : Prop where
  validate_eq : a.validate = .ok ()
  ofText?_eq : Artifact.ofText? a.text = .ok a
  objects : ∃ ks : List Kind, ks.Sublist [.strings, .plurals, .images, .colors] ∧
    List.Forall₂ Container.IsObjectOf ks a.containers

/-- What a well-made artifact contributes is complete. -/
theorem Artifact.WellMade.complete_of_mem {a : Artifact} (h : a.WellMade) {k : Kind} {e : Entry k}
    (he : e ∈ linkedEntries k [a]) : e.Complete := by
  obtain ⟨ks, -, hobjects⟩ := h.objects
  obtain ⟨a', ha', d, hd, -, hvalue⟩ := mem_linkedEntries_iff.1 he
  obtain rfl := List.mem_singleton.1 ha'
  have hflat : Container.walkAll a'.containers = a'.containers := by
    refine Container.walkAll_eq_self ?_
    intro d hd
    obtain ⟨j, -, name, role, visibility, es, rfl, -⟩ := exists_of_mem_right hobjects hd
    rfl
  rw [hflat] at hd
  obtain ⟨j, -, name, role, visibility, es, rfl, -, hcomplete⟩ := exists_of_mem_right hobjects hd
  obtain ⟨e', he', heq⟩ := List.mem_map.1 hvalue
  cases heq
  exact hcomplete e he'

/-! ### Merging and assembling -/

section Merging

variable {linked : List Artifact} {own : (k : Kind) → List (Fragment k)} {merged : Resources}

/-- **Merging complete entries gives complete entries**, each key once. -/
theorem complete_of_mergeAll (hlinked : ∀ a ∈ linked, a.WellMade)
    (hown : ∀ k, ∀ f ∈ own k, ∀ e ∈ f.entries, k.Covers e.value)
    (h : Configuration.mergeAll linked own = .ok merged) (k : Kind) :
    ((merged k).map Entry.key).Nodup ∧ ∀ e ∈ merged k, e.Complete := by
  have hmerge : mergeFragments (linked.map (Artifact.fragment k) ++ own k) = .ok (merged k) :=
    Kind.traverse_eq_ok_iff.1 h k
  refine ⟨nodup_keys_of_mergeFragments hmerge, fun e he => ?_⟩
  refine ⟨?_, covers_of_mergeFragments ?_ hmerge e he⟩
  · intro hk hnone
    have hlacks := (value?_of_mergeFragments hmerge he).2
    rw [Kind.lacksValue_iff.2 ⟨hk, hnone⟩] at hlacks
    cases hlacks
  · rw [flatMap_entries_linked, List.forall_mem_append]
    refine ⟨?_, ?_⟩
    · intro d hd
      obtain ⟨a, ha, hda⟩ := List.mem_flatMap.1 hd
      refine ((hlinked a ha).complete_of_mem ?_).covers
      exact List.mem_flatMap.2 ⟨a, List.mem_singleton_self a, hda⟩
    · intro d hd
      obtain ⟨f, hf, hdf⟩ := List.mem_flatMap.1 hd
      exact hown k f hf d hdf

namespace Configuration

variable {c : Configuration}

/-- **What is assembled of complete entries is well made.** -/
theorem wellMade_assemble (h : ∀ k, ((merged k).map Entry.key).Nodup ∧ ∀ e ∈ merged k, e.Complete)
    (sourceSet : SourceSetName) (platform : String) :
    (Artifact.ofContainers sourceSet platform (c.assemble linked merged)).WellMade where
  validate_eq := by
    rw [Artifact.validate_ofContainers, c.validate_assemble linked fun k => (h k).1]
    rfl
  ofText?_eq := c.ofText?_text_assemble linked (fun k => (h k).1) sourceSet platform
  objects := by
    have hsublist : (Kind.all.filter fun k => (c.objectOf? linked k (merged k)).isSome).Sublist
        [.strings, .plurals, .images, .colors] := List.filter_sublist
    refine ⟨_, hsublist, forall₂_filterMap ?_ Kind.all⟩
    intro k d hd
    unfold objectOf? at hd
    dsimp only at hd
    split at hd
    · cases hd
    · exact ⟨_, _, _, merged k, (Option.some.inj hd).symm, (h k).1, (h k).2⟩

/-! ### One pass -/

variable {t s : FileTree} {outcome : Outcome}

/-- The fragments that a pass builds are read from files. -/
theorem covers_of_buildAll {strict : Bool} {collected : List Source.Collected}
    {built : (k : Kind) → List (Fragment k)} (h : buildAll strict collected t = .ok built)
    (k : Kind) : ∀ f ∈ built k, ∀ e ∈ f.entries, k.Covers e.value := by
  intro f hf
  have hbuilt := mapM_eq_ok_iff.1 (Kind.traverse_eq_ok_iff.1 h k)
  obtain ⟨found, -, hfragment⟩ := exists_of_mem_right hbuilt hf
  obtain ⟨es, hes, hentries⟩ := bind_eq_ok hfragment
  rw [← Except.ok.inj hentries]
  exact Source.covers_of_build hes

/-- **A pass that links well-made artifacts makes one**, and it is what the file for it holds. -/
theorem wellMade_of_run (h : c.run.run t = (.ok outcome, s))
    (hlinked : ∀ p ∈ c.inputMetadata, ∃ a : Artifact, a.WellMade ∧ Store.read p t = .ok a) :
    outcome.artifact.WellMade ∧ Store.read c.output.metadata s = .ok outcome.artifact := by
  obtain ⟨course⟩ := exists_course_of_run h
  have hmade : ∀ a ∈ course.linked, a.WellMade := by
    intro a ha
    obtain ⟨p, hp, hread⟩ := exists_of_mem_right (mapM_eq_ok_iff.1 course.linked_eq) ha
    obtain ⟨a', hmade, hread'⟩ := hlinked p hp
    rw [hread] at hread'
    rw [Except.ok.inj hread']
    exact hmade
  have hcomplete := complete_of_mergeAll hmade (covers_of_buildAll course.built_eq) course.merged_eq
  have hwell : outcome.artifact.WellMade := by
    rw [course.artifact_eq]
    exact wellMade_assemble hcomplete _ _
  refine ⟨hwell, ?_⟩
  rw [Store.read, readText_of_read (Store.stored_of_write course.stored_eq).read_eq]
  simp only [mapError_ok, bind, Except.bind, hwell.ofText?_eq]

end Configuration

end Merging

/-! ### Passes one after the other -/

/-- The artifacts of passes one after the other. Each pass succeeds and links only artifacts of
earlier ones. In between, files may change in any way. -/
inductive Succession : List Artifact → Prop where
  | nil : Succession []
  | next {earlier : List Artifact} {c : Configuration} {t s : FileTree} {outcome : Outcome}
      (before : Succession earlier)
      (links : ∀ p ∈ c.inputMetadata, ∃ a ∈ earlier, Store.read p t = .ok a)
      (run : c.run.run t = (.ok outcome, s)) : Succession (earlier ++ [outcome.artifact])

/-- **All artifacts of passes that build upon each other are well made.** -/
theorem Succession.wellMade {artifacts : List Artifact} (h : Succession artifacts) :
    ∀ a ∈ artifacts, a.WellMade := by
  induction h with
  | nil => exact List.forall_mem_nil _
  | next before links run ih =>
    rw [List.forall_mem_append, List.forall_mem_singleton]
    refine ⟨ih, (Configuration.wellMade_of_run run ?_).1⟩
    intro p hp
    obtain ⟨a, ha, hread⟩ := links p hp
    exact ⟨a, ih a ha, hread⟩

/-- A pass for all platforms without resources of its own merges what the artifact holds that it
links. -/
theorem Configuration.run_eq_of_linked {c : Configuration} {t u s : FileTree} {p : Path}
    {linked a : Artifact} {merged : Resources} (hupper : c.upperSourceSets = [])
    (hinput : c.inputMetadata = [p]) (hcommon : c.platform = .common)
    (hread : Store.read p t = .ok linked) (hcleared : c.output.clear.run t = (.ok (), u))
    (hlist : u.list c.ownResources = [])
    (hmerged : ∀ k, mergeLinked [linked] [⟨c.sourceSet, []⟩] = .ok (merged k))
    (ha : a = .ofContainers c.sourceSet c.platform.name (c.assemble [linked] merged))
    (hstored : (Store.write c.output.metadata a).run u = (.ok (), s)) :
    c.run.run t = (.ok ⟨a, []⟩, s) := by
  have hscan : Source.scan ⟨c.sourceSet, c.ownResources⟩ u = .ok [] := by
    rw [Source.scan, hlist, List.mergeSort_nil]
    rfl
  refine Configuration.Course.run_eq {
    generators := .none
    linked := [linked]
    cleared := u
    collected := [⟨⟨c.sourceSet, c.ownResources⟩, fun _ => []⟩]
    built := fun _ => [⟨c.sourceSet, []⟩]
    merged := merged
    native := []
    generated := u
    holder := []
    held := u
    generators_eq := by rw [hcommon]; rfl
    linked_eq := ?_
    cleared_eq := hcleared
    collected_eq := ?_
    built_eq := ?_
    merged_eq := Kind.traverse_eq_ok_iff.2 hmerged
    native_eq := rfl
    holder_eq := rfl
    stored_eq := hstored
    artifact_eq := ha
    written_eq := rfl }
  · rw [hinput, Store.readAll, mapM_eq_ok_iff]
    exact .cons hread .nil
  · rw [byPrecedence, hupper, Source.collect, mapM_eq_ok_iff]
    refine .cons ?_ .nil
    show Source.scan ⟨c.sourceSet, c.ownResources⟩ u >>= _ = _
    rw [hscan]
    rfl
  · rw [buildAll, Kind.traverse_eq_ok_iff]
    intro k
    cases k <;> rfl

/-! ### Two passes -/

namespace Emblem

/-- A pass over one source set, which holds an image. -/
def first : Configuration :=
  .ofDefaults ⟨⟨"emblemMain", by decide⟩, ⟨"emblem"⟩⟩ ⟨"emblem", by decide⟩ (.under ⟨"out"⟩)

/-- A pass without resources of its own, which links the first one. -/
def second : Configuration :=
  { Configuration.ofDefaults ⟨⟨"badgeMain", by decide⟩, ⟨"badge"⟩⟩ ⟨"badge", by decide⟩
      (.under ⟨"build"⟩) with
    inputMetadata := [first.output.metadata] }

def tree : FileTree where
  nodes := OrderedMap.ofList [(["emblem"], .directory), (["emblem", "images"], .directory),
    (["emblem", "images", "emblem.png"], .file .empty)]
  rooted := by decide +kernel

def entry : Entry .images :=
  ⟨⟨"emblem", by decide⟩, OrderedMap.ofList [(.unmarked, ⟨⟨"emblem/images/emblem.png"⟩, .png⟩)]⟩

def merged : Resources
  | .strings => []
  | .plurals => []
  | .images => [entry]
  | .colors => []

/-- The tree with the output of the first pass cleared. -/
def cleared : FileTree := (first.output.clear.run tree).2

/-- The artifact of the first pass. -/
def artifact : Artifact :=
  .ofContainers first.sourceSet first.platform.name (first.assemble [] merged)

/-- The tree that the first pass leaves. -/
def stored : FileTree := ((Store.write first.output.metadata artifact).run cleared).2

theorem scan_cleared : Source.scan first.own cleared = .ok [["images", "emblem.png"]] := by
  have hlist : cleared.list first.own.root =
      [(["images"], .directory), (["images", "emblem.png"], .file .empty)] := by decide +kernel
  rw [Source.scan, hlist, List.mergeSort_of_pairwise (by decide)]
  rfl

theorem run_first : first.run.run tree = (.ok ⟨artifact, []⟩, stored) := by
  refine Configuration.run_eq_of_own (g := .none) (u := cleared) rfl rfl rfl
    (run_eq_of_isOk (by decide +kernel)) scan_cleared ?_ ?_ (run_pure [] cleared)
    (run_pure [] cleared) rfl (run_eq_of_isOk (by decide +kernel))
  · intro k
    cases k <;> rfl
  · intro k
    cases k <;> rfl

/-- The tree with the output of the second pass cleared. -/
def clearedAgain : FileTree := (second.output.clear.run stored).2

/-- The artifact of the second pass. -/
def successor : Artifact :=
  .ofContainers second.sourceSet second.platform.name (second.assemble [artifact] merged)

theorem read_stored : Store.read first.output.metadata stored = .ok artifact :=
  (Configuration.wellMade_of_run run_first (List.forall_mem_nil _)).2

theorem run_second : ∃ s, second.run.run stored = (.ok ⟨successor, []⟩, s) := by
  have hlist : clearedAgain.list second.ownResources = [] := by decide +kernel
  refine ⟨((Store.write second.output.metadata successor).run clearedAgain).2, ?_⟩
  refine Configuration.run_eq_of_linked (u := clearedAgain) rfl rfl rfl read_stored
    (run_eq_of_isOk (by decide +kernel)) hlist ?_ rfl (run_eq_of_isOk (by decide +kernel))
  intro k
  rw [mergeLinked, List.map_cons, List.map_nil, artifact, Configuration.fragment_assemble]
  cases k <;> rfl

end Emblem

/-- The second artifact holds the image that the first pass found. -/
theorem Succession.wellMade_emblem :
    Succession [Emblem.artifact, Emblem.successor] ∧
      Emblem.artifact.WellMade ∧ Emblem.successor.WellMade ∧
      linkedEntries .images [Emblem.successor] = [Emblem.entry] := by
  have hfirst : Succession [Emblem.artifact] :=
    Succession.nil.next (List.forall_mem_nil _) Emblem.run_first
  obtain ⟨s, hsecond⟩ := Emblem.run_second
  have hboth : Succession [Emblem.artifact, Emblem.successor] := by
    refine hfirst.next ?_ hsecond
    intro p hp
    obtain rfl := List.mem_singleton.1 hp
    exact ⟨Emblem.artifact, List.mem_singleton_self _, Emblem.read_stored⟩
  have hmade := Succession.wellMade hboth
  refine ⟨hboth, hmade _ (by simp), hmade _ (by simp), ?_⟩
  have hfragment : (Emblem.successor.fragment .images).entries = [Emblem.entry] := by
    rw [Emblem.successor, Configuration.fragment_assemble]
    rfl
  rw [← hfragment]
  exact List.append_nil _

end ResourceCompiler
