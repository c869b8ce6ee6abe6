import ResourceCompiler.Proofs.Succession

/-!
# Providing what earlier passes declare

A pass names the object of a kind after its package and class, so that the passes of one library
name theirs alike. What such a pass links, it provides: the objects of the artifact are there again
under the same names, they say that they are provided, and they hold at least what was linked.

* `Resource.HeldBy`, `ResourceObject.Provides`: one object in the place of another.
* `Configuration.mem_objects_assemble_iff`: the objects that a pass assembles.
* `Configuration.read_of_run`: a file that an earlier pass wrote is read as the artifact it made.
* `Configuration.provides_of_run`: a successful pass provides what it links.
-/

namespace ResourceCompiler

open FileAction FileTree

/-- Whether an object holds the key of an entry, with all of its locales or scales. -/
def Resource.HeldBy (r : Resource) (n : ResourceObject) : Prop :=
  ∃ e : Entry r.kind, ⟨r.kind, e⟩ ∈ n.values ∧ e.key = r.key ∧ ∀ q ∈ r.qualifiers, q ∈ e.qualifiers

/-- An object that provides another one: it has the name and the kind of the other, it says that it
provides something, and it holds all that the other holds. -/
structure ResourceObject.Provides (n o : ResourceObject) : Prop where
  name_eq : n.name = o.name
  type_eq : n.type = o.type
  role_eq : n.role = .actual
  held : ∀ r ∈ o.values, r.HeldBy n

namespace Configuration

variable {c : Configuration} {linked : List Artifact} {merged : Resources}

/-! ### The objects that a pass assembles -/

/-- The object that holds the entries of a kind. -/
def object (c : Configuration) (linked : List Artifact) (k : Kind) (es : List (Entry k)) :
    ResourceObject where
  name := c.objectName k
  type := k
  role := c.roleOf linked (c.objectName k)
  visibility := c.visibility
  values := es.map fun e => ⟨k, e⟩
  nested := []

/-- An object without entries is there only to provide another one. -/
theorem object?_objectOf?_eq_some_iff {k : Kind} {es : List (Entry k)} {n : ResourceObject} :
    (c.objectOf? linked k es).bind Container.object? = some n ↔
      (es = [] → c.roleOf linked (c.objectName k) = .actual) ∧ c.object linked k es = n := by
  unfold objectOf?
  dsimp only
  split
  · rename_i h
    refine iff_of_false (fun hn => by cases hn) ?_
    intro hn
    exact h.2 (hn.1 (List.isEmpty_iff.1 h.1))
  · rename_i h
    have hrole : es = [] → c.roleOf linked (c.objectName k) = .actual := by
      intro hnil
      by_contra hne
      exact h ⟨List.isEmpty_iff.2 hnil, hne⟩
    refine ⟨fun hn => ⟨hrole, Option.some.inj hn⟩, ?_⟩
    intro hn
    exact congrArg some hn.2

/-- **A pass assembles one object for each kind** that has entries, and for each kind whose object
an artifact declares. -/
theorem mem_objects_assemble_iff {n : ResourceObject} :
    n ∈ Container.objects (c.assemble linked merged) ↔
      ∃ k, (merged k = [] → c.roleOf linked (c.objectName k) = .actual) ∧
        c.object linked k (merged k) = n := by
  have hall : ∀ k, k ∈ Kind.all := by
    intro k
    cases k <;> decide
  rw [Container.objects, walkAll_assemble, assemble, List.filterMap_filterMap, List.mem_filterMap]
  constructor
  · rintro ⟨k, -, hk⟩
    exact ⟨k, object?_objectOf?_eq_some_iff.1 hk⟩
  · rintro ⟨k, hk⟩
    exact ⟨k, hall k, object?_objectOf?_eq_some_iff.2 hk⟩

/-- An object that provides nothing waits to be provided, in a pass for all platforms, or is
final. -/
theorem roleOf_of_ne_actual {name : String} (h : c.roleOf linked name ≠ .actual) :
    c.roleOf linked name = if c.platform.isCommon then .expect else .plain := by
  unfold roleOf at h ⊢
  split
  · rename_i hmem
    rw [if_pos hmem] at h
    exact absurd rfl h
  · rfl

theorem objectName_congr {c' : Configuration} (hpackage : c'.package = c.package)
    (hclass : c'.className = c.className) (k : Kind) : c'.objectName k = c.objectName k := by
  rw [objectName, objectName, hpackage, hclass]

/-! ### Linking an earlier pass -/

/-- **What a pass links under its own names is provided.** -/
theorem provides_of_mem_linked {own : (k : Kind) → List (Fragment k)} {c' : Configuration}
    {linked' : List Artifact} {merged' : Resources} {a : Artifact}
    (hmerged : mergeAll linked own = .ok merged) (ha : a ∈ linked)
    (hcontainers : a.containers = c'.assemble linked' merged')
    (hpackage : c'.package = c.package) (hclass : c'.className = c.className) {o : ResourceObject}
    (ho : o ∈ a.objects) :
    ∃ n ∈ Container.objects (c.assemble linked merged), n.Provides o := by
  have hkept : ∀ r ∈ o.values, r.KeptBy merged := by
    intro r hr
    obtain ⟨d, hd, hobject⟩ := List.mem_filterMap.1 ho
    have hvalues : r ∈ d.values := by
      obtain ⟨name, shape, values, nested⟩ := d
      cases shape with
      | group => cases hobject
      | object type role visibility =>
        rw [← Option.some.inj hobject] at hr
        exact hr
    refine (keptBy_of_mergeAll hmerged a ha d hd r hvalues).1 ?_
    rw [hobject]
    rfl
  have hactual : c.roleOf linked o.name = .actual := roleOf_eq_actual_iff.2 ⟨a, ha, o, ho, rfl⟩
  rw [Artifact.objects, hcontainers] at ho
  obtain ⟨k, -, rfl⟩ := mem_objects_assemble_iff.1 ho
  have hname : (c'.object linked' k (merged' k)).name = c.objectName k :=
    objectName_congr hpackage hclass k
  rw [hname] at hactual
  refine ⟨c.object linked k (merged k), mem_objects_assemble_iff.2 ⟨k, fun _ => hactual, rfl⟩, ?_⟩
  refine ⟨hname.symm, rfl, hactual, ?_⟩
  intro r hr
  obtain ⟨e, -, rfl⟩ := List.mem_map.1 hr
  obtain ⟨e', he', hkey, hqualifiers⟩ := hkept _ hr
  exact ⟨e', List.mem_map.2 ⟨e', he', rfl⟩, hkey, hqualifiers⟩

variable {t s : FileTree} {outcome : Outcome}

theorem Course.containers_eq (h : c.Course t outcome s) :
    outcome.artifact.containers = c.assemble h.linked h.merged := by
  rw [h.artifact_eq]
  rfl

theorem Course.nodup_merged (h : c.Course t outcome s) (k : Kind) :
    ((h.merged k).map Entry.key).Nodup :=
  nodup_keys_of_mergeFragments (Kind.traverse_eq_ok_iff.1 h.merged_eq k)

/-- **A file that a pass wrote is read as the artifact it made**, wherever the file is now. -/
theorem read_of_run {t' : FileTree} {p : Path} (h : c.run.run t = (.ok outcome, s))
    (hfile : t'.read p = s.read c.output.metadata) : Store.read p t' = .ok outcome.artifact := by
  obtain ⟨course⟩ := exists_course_of_run h
  have hbytes : t'.read p = .ok outcome.artifact.text.toUTF8 := by
    rw [hfile]
    exact (Store.stored_of_write course.stored_eq).read_eq
  have htext : Artifact.ofText? outcome.artifact.text = .ok outcome.artifact := by
    rw [course.artifact_eq]
    exact c.ofText?_text_assemble course.linked course.nodup_merged c.sourceSet c.platform.name
  rw [Store.read, readText_of_read hbytes]
  simp only [mapError_ok, bind, Except.bind, htext]

/-- **Every object that a pass links is provided.** An object of the new artifact provides something
exactly if an artifact linked holds an object of its name, at any depth. A linked file that holds
what an earlier pass of the same package and class wrote is among the artifacts linked, and each of
its objects is provided. -/
theorem provides_of_run (h : c.run.run t = (.ok outcome, s)) :
    ∃ linked, Store.readAll c.inputMetadata t = .ok linked ∧
      (∀ n ∈ outcome.artifact.objects,
        (n.role = .actual ↔ ∃ a ∈ linked, ∃ o ∈ a.objects, o.name = n.name) ∧
        (n.role ≠ .actual → n.role = if c.platform.isCommon then .expect else .plain)) ∧
      ∀ p ∈ c.inputMetadata, ∀ (c' : Configuration) (t' s' : FileTree) (outcome' : Outcome),
        c'.run.run t' = (.ok outcome', s') → t.read p = s'.read c'.output.metadata →
        c'.package = c.package → c'.className = c.className →
          outcome'.artifact ∈ linked ∧
            ∀ o ∈ outcome'.artifact.objects, ∃ n ∈ outcome.artifact.objects, n.Provides o := by
  obtain ⟨course⟩ := exists_course_of_run h
  refine ⟨course.linked, course.linked_eq, ?_, ?_⟩
  · intro n hn
    rw [Artifact.objects, course.containers_eq] at hn
    obtain ⟨k, -, rfl⟩ := mem_objects_assemble_iff.1 hn
    exact ⟨roleOf_eq_actual_iff, roleOf_of_ne_actual⟩
  · intro p hp c' t' s' outcome' hrun hfile hpackage hclass
    have hmem : outcome'.artifact ∈ course.linked := by
      obtain ⟨a, ha, hread⟩ := exists_of_mem_right (mapM_eq_ok_iff.1 course.linked_eq).flip hp
      rw [read_of_run hrun hfile] at hread
      rw [Except.ok.inj hread]
      exact ha
    refine ⟨hmem, ?_⟩
    intro o ho
    obtain ⟨earlier⟩ := exists_course_of_run hrun
    rw [Artifact.objects, course.containers_eq]
    exact provides_of_mem_linked course.merged_eq hmem earlier.containers_eq hpackage hclass ho

end Configuration

/-! ### The emblem provided -/

namespace Emblem

/-- The second pass under the names of the first one. -/
def sequel : Configuration := { second with package := first.package }

/-- The artifact of that pass. -/
def provision : Artifact :=
  .ofContainers sequel.sourceSet sequel.platform.name (sequel.assemble [artifact] merged)

theorem run_sequel : ∃ s, sequel.run.run stored = (.ok ⟨provision, []⟩, s) := by
  have hlist : clearedAgain.list sequel.ownResources = [] := by decide +kernel
  refine ⟨((Store.write sequel.output.metadata provision).run clearedAgain).2, ?_⟩
  refine Configuration.run_eq_of_linked (u := clearedAgain) rfl rfl rfl read_stored
    (run_eq_of_isOk (by decide +kernel)) hlist ?_ rfl (run_eq_of_isOk (by decide +kernel))
  intro k
  rw [mergeLinked, List.map_cons, List.map_nil, artifact, Configuration.fragment_assemble]
  cases k <;> rfl

/-- The object that the first pass declares. -/
def declared : ResourceObject := first.object [] .images [entry]

end Emblem

/-- The object with the image was to be provided, and then it is. -/
theorem Configuration.provides_of_run_emblem :
    Emblem.declared ∈ Emblem.artifact.objects ∧ Emblem.declared.role = .expect ∧
      ∃ n ∈ Emblem.provision.objects, n.Provides Emblem.declared := by
  have hdeclared : Emblem.declared ∈ Emblem.artifact.objects := by
    show _ ∈ Container.objects (Emblem.first.assemble [] Emblem.merged)
    refine mem_objects_assemble_iff.2 ⟨.images, ?_, rfl⟩
    intro hnil
    cases hnil
  obtain ⟨s, hsequel⟩ := Emblem.run_sequel
  obtain ⟨linked, -, -, hprovided⟩ := Configuration.provides_of_run hsequel
  refine ⟨hdeclared, rfl, ?_⟩
  refine (hprovided Emblem.first.output.metadata (List.mem_singleton_self _) Emblem.first
    Emblem.tree Emblem.stored ⟨Emblem.artifact, []⟩ Emblem.run_first rfl rfl rfl).2 _ hdeclared

end ResourceCompiler
