import ResourceCompiler.Proofs.Assembly
import ResourceCompiler.Proofs.Precedence

/-!
# What merging keeps

Merging drops no key that a fragment declares, and no locale or scale that it declares for the key.
Artifacts contribute the entries of their objects, however deeply these are nested, but nothing of
what their groups hold.

* `Kind.Qualifier`, `Kind.qualifiers`: the locales or scales of a value.
* `Resource.KeptBy`: merged resources hold the key of an entry and all of its qualifiers.
* `declaredEntries`: the entries that linked artifacts and own fragments declare.
* `mem_qualifiers_of_mergeFragments`: the qualifiers of a merged entry are those declared.
* `Configuration.keptBy_of_mergeAll`: what of an artifact is kept.
-/

namespace ResourceCompiler

/-! ### Qualifiers -/

/-- What the values of a kind are told apart by. -/
abbrev Kind.Qualifier : Kind → Type
  | .strings => Locale
  | .plurals => Locale
  | .images => Scale
  | .colors => Empty

/-- The locales or scales that a value has something for, in order. -/
def Kind.qualifiers : (k : Kind) → k.Value → List k.Qualifier
  | .strings, v => OrderedMap.keys v
  | .plurals, v => OrderedMap.keys v
  | .images, v => OrderedMap.keys v
  | .colors, _ => []

/-- The locales or scales of an entry. -/
def Entry.qualifiers {k : Kind} (e : Entry k) : List k.Qualifier := k.qualifiers e.value

variable {k : Kind}

theorem Kind.lacksValue_iff {v : k.Value} :
    k.lacksValue v = true ↔ k ≠ .colors ∧ k.qualifiers v = [] := by
  cases k with
  | strings => simp [lacksValue, qualifiers, OrderedMap.isEmpty_iff]
  | plurals => simp [lacksValue, qualifiers, OrderedMap.isEmpty_iff]
  | images => simp [lacksValue, qualifiers, OrderedMap.isEmpty_iff]
  | colors => simp [lacksValue]

theorem OrderedMap.IsLayering.mem_keys {κ α : Type} [DecidableEq κ]
    {ms : List (OrderedMap κ α)} {m : OrderedMap κ α} (h : IsLayering ms m) {q : κ} :
    q ∈ m.keys ↔ ∃ n ∈ ms, q ∈ n.keys := by
  rw [h.keys_eq, List.mem_eraseDups, List.mem_flatMap]

theorem Kind.IsLayering.mem_qualifiers {vs : List k.Value} {v : k.Value} (h : k.IsLayering vs v)
    {q : k.Qualifier} : q ∈ k.qualifiers v ↔ ∃ u ∈ vs, q ∈ k.qualifiers u := by
  cases k with
  | strings => exact OrderedMap.IsLayering.mem_keys h
  | plurals => exact OrderedMap.IsLayering.mem_keys h
  | images => exact OrderedMap.IsLayering.mem_keys h
  | colors => cases q

theorem mem_valuesOf_iff {key : Key} {es : List (Entry k)} {v : k.Value} :
    v ∈ valuesOf key es ↔ ∃ e ∈ es, e.key = key ∧ e.value = v := by
  simp [valuesOf, List.mem_filterMap]

section Merging

variable {fs : List (Fragment k)} {es : List (Entry k)}

theorem exists_mem_of_mergeFragments (h : mergeFragments fs = .ok es) (key : Key) :
    (∃ e ∈ es, e.key = key) ↔ ∃ d ∈ fs.flatMap Fragment.entries, d.key = key := by
  rw [← List.mem_map, keys_of_mergeFragments h, List.mem_eraseDups, List.mem_map]

/-- **A merged entry has the qualifiers that are declared for its key.** -/
theorem mem_qualifiers_of_mergeFragments (h : mergeFragments fs = .ok es) {e : Entry k}
    (he : e ∈ es) {q : k.Qualifier} :
    q ∈ e.qualifiers ↔
      ∃ d ∈ fs.flatMap Fragment.entries, d.key = e.key ∧ q ∈ d.qualifiers := by
  have hlayered := Kind.isLayering_of_layered (layered_of_mergeFragments h he)
  rw [Entry.qualifiers, hlayered.mem_qualifiers]
  constructor
  · rintro ⟨u, hu, hq⟩
    obtain ⟨d, hd, hkey, rfl⟩ := mem_valuesOf_iff.1 hu
    exact ⟨d, hd, hkey, hq⟩
  · rintro ⟨d, hd, hkey, hq⟩
    exact ⟨d.value, mem_valuesOf_iff.2 ⟨d, hd, hkey, rfl⟩, hq⟩

end Merging

/-! ### Entries of artifacts -/

namespace Resource

/-- The locales or scales of the entry. -/
def qualifiers (r : Resource) : List r.kind.Qualifier := r.entry.qualifiers

/-- Whether merged resources hold the key of an entry, with all of its locales or scales. -/
def KeptBy (r : Resource) (merged : Resources) : Prop :=
  ∃ e ∈ merged r.kind, e.key = r.key ∧ ∀ q ∈ r.qualifiers, q ∈ e.qualifiers

/-- Whether entries declare the key of an entry, and each of its locales or scales for the key. -/
def CoveredBy (r : Resource) (es : List (Entry r.kind)) : Prop :=
  (∃ e ∈ es, e.key = r.key) ∧ ∀ q ∈ r.qualifiers, ∃ e ∈ es, e.key = r.key ∧ q ∈ e.qualifiers

theorem coveredBy_of_mem {r : Resource} {es : List (Entry r.kind)} (h : r.entry ∈ es) :
    r.CoveredBy es :=
  ⟨⟨r.entry, h, rfl⟩, fun _ hq => ⟨r.entry, h, rfl, hq⟩⟩

end Resource

/-- The entries of a kind that linked artifacts and own fragments declare, in order. -/
def declaredEntries (linked : List Artifact) (own : List (Fragment k)) : List (Entry k) :=
  linkedEntries k linked ++ own.flatMap Fragment.entries

/-- An artifact contributes the entries of its objects, at any depth. -/
theorem mem_linkedEntries_iff {linked : List Artifact} {e : Entry k} :
    e ∈ linkedEntries k linked ↔ ∃ a ∈ linked, ∃ d ∈ Container.walkAll a.containers,
      d.object?.isSome = true ∧ ⟨k, e⟩ ∈ d.values := by
  have hvalues : ∀ (d : Container) (o : ResourceObject), d.object? = some o →
      o.values = d.values := by
    intro d o ho
    obtain ⟨name, shape, values, nested⟩ := d
    cases shape with
    | object type role visibility => rw [← Option.some.inj ho]; rfl
    | group => cases ho
  simp only [linkedEntries, Artifact.objects, Container.objects, List.mem_filterMap,
    List.mem_flatMap, Resource.ofKind?_eq_some_iff]
  constructor
  · rintro ⟨a, ha, r, ⟨o, ⟨d, hd, ho⟩, hr⟩, rfl⟩
    exact ⟨a, ha, d, hd, Option.isSome_iff_exists.2 ⟨o, ho⟩, hvalues d o ho ▸ hr⟩
  · rintro ⟨a, ha, d, hd, hobject, hr⟩
    obtain ⟨o, ho⟩ := Option.isSome_iff_exists.1 hobject
    exact ⟨a, ha, ⟨k, e⟩, ⟨o, ⟨d, hd, ho⟩, (hvalues d o ho).symm ▸ hr⟩, rfl⟩

namespace Configuration

variable {linked : List Artifact} {own : (k : Kind) → List (Fragment k)} {merged : Resources}

/-- What is kept of an entry is what is declared of it. -/
theorem keptBy_iff_coveredBy (h : mergeAll linked own = .ok merged) (r : Resource) :
    r.KeptBy merged ↔ r.CoveredBy (declaredEntries linked (own r.kind)) := by
  have hmerge := Kind.traverse_eq_ok_iff.1 h r.kind
  rw [mergeLinked] at hmerge
  have hkey := exists_mem_of_mergeFragments hmerge r.key
  have hqualifiers := fun e he q => mem_qualifiers_of_mergeFragments hmerge (e := e) he (q := q)
  rw [flatMap_entries_linked, ← declaredEntries] at hkey hqualifiers
  constructor
  · rintro ⟨e, he, hk, hall⟩
    refine ⟨hkey.1 ⟨e, he, hk⟩, ?_⟩
    intro q hq
    rw [← hk, ← hqualifiers e he q]
    exact hall q hq
  · rintro ⟨hdeclared, hall⟩
    obtain ⟨e, he, hk⟩ := hkey.2 hdeclared
    refine ⟨e, he, hk, ?_⟩
    intro q hq
    rw [hqualifiers e he q, hk]
    exact hall q hq

/-- **Nothing that an object of an artifact holds is dropped.** An entry of an artifact is kept with
all of its locales or scales if an object holds it, at any depth. An entry of a group counts for
nothing: it is kept just as far as objects and own fragments declare the same. -/
theorem keptBy_of_mergeAll (h : mergeAll linked own = .ok merged) :
    ∀ a ∈ linked, ∀ d ∈ Container.walkAll a.containers, ∀ r ∈ d.values,
      (d.object?.isSome = true → r.KeptBy merged) ∧
        (r.KeptBy merged ↔ r.CoveredBy (declaredEntries linked (own r.kind))) := by
  intro a ha d hd r hr
  refine ⟨?_, keptBy_iff_coveredBy h r⟩
  intro hobject
  rw [keptBy_iff_coveredBy h]
  apply Resource.coveredBy_of_mem
  exact List.mem_append_left _ (mem_linkedEntries_iff.2 ⟨a, ha, d, hd, hobject, hr⟩)

end Configuration

/-! ### A group between objects -/

namespace Drawer

/-- A string with a text for the base locale alone. -/
def text (key : Key) (content : String) : Entry .strings :=
  ⟨key, OrderedMap.ofList [(.base, content)]⟩

def label : Entry .strings := text ⟨"label", by decide⟩ "Drawer"

def loose : Entry .strings := text ⟨"loose", by decide⟩ "Pen"

def boxed : Entry .strings := text ⟨"boxed", by decide⟩ "Ring"

/-- The object at the bottom. -/
def box : Container :=
  .node "drawer.Box.strings" (.object .strings .plain .exported) [⟨.strings, boxed⟩] []

/-- The group in the middle, which holds an entry itself. -/
def group : Container := .node "drawer" .group [⟨.strings, loose⟩] [box]

/-- An object over the group. -/
def chest : Container :=
  .node "drawer.MR.strings" (.object .strings .plain .exported) [⟨.strings, label⟩] [group]

def artifact : Artifact := .ofContainers ⟨"drawerMain", by decide⟩ "jvm" [chest]

def merged : Resources
  | .strings => [label, boxed]
  | .plurals => []
  | .images => []
  | .colors => []

theorem walkAll_containers : Container.walkAll artifact.containers = [chest, group, box] := rfl

end Drawer

theorem keptBy_of_mergeAll_drawer :
    Artifact.ofText? Drawer.artifact.text = .ok Drawer.artifact ∧
      Configuration.mergeAll [Drawer.artifact] (fun _ => []) = .ok Drawer.merged ∧
      Resource.KeptBy ⟨.strings, Drawer.boxed⟩ Drawer.merged ∧
      ¬ Resource.KeptBy ⟨.strings, Drawer.loose⟩ Drawer.merged := by
  have hvalid : Drawer.artifact.validate = .ok () := by
    rw [Drawer.artifact, Artifact.validate_ofContainers]
    rfl
  have hread : Artifact.ofText? Drawer.artifact.text = .ok Drawer.artifact :=
    Artifact.ofText?_text_of_validate hvalid (Artifact.depth_toJson_le.2 (by decide))
  have hmerge : Configuration.mergeAll [Drawer.artifact] (fun _ => []) = .ok Drawer.merged := by
    rw [Configuration.mergeAll, Kind.traverse_eq_ok_iff]
    intro k
    cases k <;> rfl
  have hkept := Configuration.keptBy_of_mergeAll hmerge Drawer.artifact (List.mem_singleton_self _)
  rw [Drawer.walkAll_containers] at hkept
  refine ⟨hread, hmerge, ?_, ?_⟩
  · exact (hkept Drawer.box (by simp) ⟨.strings, Drawer.boxed⟩ (List.mem_singleton_self _)).1 rfl
  · rw [(hkept Drawer.group (by simp) ⟨.strings, Drawer.loose⟩ (List.mem_singleton_self _)).2]
    rintro ⟨⟨e, he, hkey⟩, -⟩
    have hdeclared : e ∈ [Drawer.label, Drawer.boxed] := he
    have hne : ∀ d ∈ [Drawer.label, Drawer.boxed], d.key ≠ Drawer.loose.key := by decide
    exact hne e hdeclared hkey

end ResourceCompiler
