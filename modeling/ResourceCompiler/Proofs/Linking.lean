import ResourceCompiler.Proofs.Assembly
import ResourceCompiler.Proofs.Defaults
import ResourceCompiler.Proofs.Merging
import ResourceCompiler.Proofs.Sequence

/-!
# Linking earlier passes

Merging over the artifacts of earlier passes gives what merging everything that these passes merged
would have given. An artifact keeps the entries of its pass in order, and entries that were merged
before can stand for the declarations they come from.

* `StandsFor`: entries that can take the place of others in front of any declarations.
* `standsFor_of_mergeFragments`: merged entries can stand for what was merged.
* `mergeFragments_append_congr`: what they can take the place in.
* `EarlierPass`, `mergeLinked_eq_mergeFragments`: linking equals one long chain.
-/

namespace ResourceCompiler

variable {k : Kind}

/-! ### Entries in the place of others -/

/-- Entries that can take the place of others: the same keys in the same order, the same values,
and no key without a value. -/
structure StandsFor (es fs : List (Entry k)) : Prop where
  keys_eq : (es.map Entry.key).eraseDups = (fs.map Entry.key).eraseDups
  layered_eq : ∀ key, k.layered (valuesOf key es) = k.layered (valuesOf key fs)
  lacksValue_eq : ∀ key, ∀ v ∈ k.layered (valuesOf key fs), k.lacksValue v = false

theorem Kind.lacksValue_overlay (k : Kind) (u v : k.Value) :
    k.lacksValue (k.overlay u v) = (k.lacksValue u && k.lacksValue v) := by
  cases k with
  | strings => exact OrderedMap.isEmpty_overlay u v
  | plurals => exact OrderedMap.isEmpty_overlay u v
  | images => exact OrderedMap.isEmpty_overlay u v
  | colors => rfl

/-- Over a value nothing comes to lack one. -/
theorem Kind.eq_none_of_mem_merge {o p : Option k.Value} (ho : ∀ u ∈ o, k.lacksValue u = false)
    {v : k.Value} (hv : v ∈ o.merge k.overlay p) (hlacks : k.lacksValue v = true) :
    o = none ∧ v ∈ p := by
  cases o with
  | none =>
    rw [Option.merge_none_left] at hv
    exact ⟨rfl, hv⟩
  | some u =>
    have hu := ho u rfl
    exfalso
    cases p with
    | none =>
      rw [Option.merge_none_right] at hv
      rw [← Option.some.inj hv, hu] at hlacks
      cases hlacks
    | some w =>
      rw [Option.merge_some_some] at hv
      rw [← Option.some.inj hv, Kind.lacksValue_overlay, hu] at hlacks
      cases hlacks

namespace StandsFor

theorem nil : StandsFor ([] : List (Entry k)) [] where
  keys_eq := rfl
  layered_eq _ := rfl
  lacksValue_eq _ _ hv := by cases hv

theorem append {es fs es' fs' : List (Entry k)} (h : StandsFor es fs) (h' : StandsFor es' fs') :
    StandsFor (es ++ es') (fs ++ fs') where
  keys_eq := by
    rw [List.map_append, List.map_append, ← eraseDups_eraseDups_append, h.keys_eq,
      eraseDups_eraseDups_append, ← eraseDups_append_eraseDups, h'.keys_eq,
      eraseDups_append_eraseDups]
  layered_eq key := by
    rw [valuesOf_append, valuesOf_append, Kind.layered_append, Kind.layered_append,
      h.layered_eq, h'.layered_eq]
  lacksValue_eq key v hv := by
    rw [valuesOf_append, Kind.layered_append] at hv
    rw [Bool.eq_false_iff]
    intro hlacks
    have hupper := (Kind.eq_none_of_mem_merge (h.lacksValue_eq key) hv hlacks).2
    rw [h'.lacksValue_eq key v hupper] at hlacks
    cases hlacks

end StandsFor

theorem valuesOf_of_mem {es : List (Entry k)} (hn : (es.map Entry.key).Nodup) {e : Entry k}
    (he : e ∈ es) : valuesOf e.key es = [e.value] := by
  induction es with
  | nil => cases he
  | cons d es ih =>
    rw [List.map_cons, List.nodup_cons] at hn
    have hcons : valuesOf e.key (d :: es) = valuesOf e.key [d] ++ valuesOf e.key es :=
      valuesOf_append e.key [d] es
    rcases List.mem_cons.1 he with rfl | he
    · rw [hcons, valuesOf_eq_nil_iff.2 hn.1]
      simp [valuesOf]
    · have hne : d.key ≠ e.key := fun heq => hn.1 (List.mem_map.2 ⟨e, he, heq.symm⟩)
      rw [hcons, ih hn.2 he]
      simp [valuesOf, hne]

/-- **Merged entries can take the place of what was merged.** -/
theorem standsFor_of_mergeFragments {fs : List (Fragment k)} {es : List (Entry k)}
    (h : mergeFragments fs = .ok es) : StandsFor es (fs.flatMap Fragment.entries) := by
  have hkeys := keys_of_mergeFragments h
  have hnodup := nodup_keys_of_mergeFragments h
  have habsent : ∀ key, key ∉ es.map Entry.key →
      valuesOf key es = [] ∧ valuesOf key (fs.flatMap Fragment.entries) = [] := by
    intro key hkey
    refine ⟨valuesOf_eq_nil_iff.2 hkey, valuesOf_eq_nil_iff.2 ?_⟩
    rwa [hkeys, List.mem_eraseDups] at hkey
  refine ⟨?_, fun key => ?_, fun key v hv => ?_⟩
  · rw [hkeys, eraseDups_of_nodup (nodup_eraseDups _)]
  · by_cases hkey : key ∈ es.map Entry.key
    · obtain ⟨e, he, rfl⟩ := List.mem_map.1 hkey
      rw [valuesOf_of_mem hnodup he, layered_of_mergeFragments h he]
      rfl
    · rw [(habsent key hkey).1, (habsent key hkey).2]
  · by_cases hkey : key ∈ es.map Entry.key
    · obtain ⟨e, he, rfl⟩ := List.mem_map.1 hkey
      rw [layered_of_mergeFragments h he] at hv
      rw [← Option.some.inj hv]
      exact (value?_of_mergeFragments h he).2
    · rw [(habsent key hkey).2] at hv
      cases hv

/-! ### The result of merging -/

/-- Merged maps give one result when they agree on keys and values, and on the source set of each
key without a value. -/
theorem Merged.result_congr {m n : Merged k} (hkeys : m.keys = n.keys)
    (hvalue : ∀ key, m.value? key = n.value? key)
    (hsource : ∀ key, ∀ v ∈ n.value? key, k.lacksValue v = true → m.source? key = n.source? key) :
    m.result = n.result := by
  have hentries : List.Forall₂ (fun a b => a.1 = b.1 ∧ a.2.1 = b.2.1 ∧
      (k.lacksValue b.2.1 = true → a.2.2 = b.2.2)) m.entries n.entries := by
    have hfst : List.Forall₂ Eq (m.entries.map Prod.fst) (n.entries.map Prod.fst) := by
      rw [List.forall₂_eq_eq_eq]
      exact hkeys
    rw [List.forall₂_map_left_iff, List.forall₂_map_right_iff] at hfst
    refine forall₂_imp_of_mem hfst ?_
    rintro ⟨key, v, s⟩ ha ⟨key', w, r⟩ hb rfl
    have hm := OrderedMap.mem_entries_iff.1 ha
    have hn := OrderedMap.mem_entries_iff.1 hb
    have hv := hvalue key
    have hs := hsource key w
    simp only [value?, source?, hm, hn, Option.map_some, Option.mem_def, Option.some.injEq] at hv hs
    exact ⟨rfl, hv, hs trivial⟩
  have hmap : m.entries.map (fun e => (⟨e.1, e.2.1⟩ : Entry k)) =
      n.entries.map fun e => ⟨e.1, e.2.1⟩ := by
    rw [← List.forall₂_eq_eq_eq, List.forall₂_map_left_iff, List.forall₂_map_right_iff]
    exact hentries.imp fun a b hab => by rw [hab.1, hab.2.1]
  have hfind := find?_rel (p := fun e => k.lacksValue e.2.1) (q := fun e => k.lacksValue e.2.1)
    (fun a b hab => congrArg k.lacksValue hab.2.1) hentries
  have hlacks := fun b =>
    List.find?_some (p := fun e => k.lacksValue e.2.1) (l := n.entries) (a := b)
  unfold result
  revert hfind hlacks
  rw [hmap]
  generalize m.entries.find? _ = found
  generalize n.entries.find? _ = found'
  intro hfind hlacks
  cases hfind with
  | none => rfl
  | @some a b hab =>
    obtain ⟨key, v, s⟩ := a
    obtain ⟨key', w, r⟩ := b
    obtain ⟨rfl, -, hs⟩ := hab
    rw [show s = r from hs (hlacks _ rfl)]

/-- What no earlier fragment declares comes from the later ones. -/
theorem source?_ofFragments_append {fs : List (Fragment k)} {key : Key}
    (h : k.layered (valuesOf key (fs.flatMap Fragment.entries)) = none) (own : List (Fragment k)) :
    (Merged.ofFragments (fs ++ own)).source? key =
      ((declarations own).reverse.find? fun d => d.2.key = key).map Prod.fst := by
  have hnone : (Merged.ofFragments fs).source? key = none := by
    rw [← value?_ofFragments, Merged.value?, Option.map_eq_none_iff] at h
    rw [Merged.source?, h]
    rfl
  rw [Merged.ofFragments_eq_declareAll, declarations_append, Merged.declareAll_append,
    ← Merged.ofFragments_eq_declareAll, Merged.source?_declareAll, hnone, Option.or_none]

/-- **Entries can be replaced in front of any fragments.** -/
theorem mergeFragments_append_congr {gs fs : List (Fragment k)}
    (h : StandsFor (gs.flatMap Fragment.entries) (fs.flatMap Fragment.entries))
    (own : List (Fragment k)) : mergeFragments (gs ++ own) = mergeFragments (fs ++ own) := by
  have hvalue : ∀ key, (Merged.ofFragments (gs ++ own)).value? key =
      (Merged.ofFragments (fs ++ own)).value? key := by
    intro key
    rw [value?_ofFragments, value?_ofFragments, List.flatMap_append, List.flatMap_append,
      valuesOf_append, valuesOf_append, Kind.layered_append, Kind.layered_append, h.layered_eq]
  refine Merged.result_congr ?_ hvalue ?_
  · rw [keys_ofFragments, keys_ofFragments, List.flatMap_append, List.flatMap_append,
      List.map_append, List.map_append, ← eraseDups_eraseDups_append, h.keys_eq,
      eraseDups_eraseDups_append]
  · intro key v hv hlacks
    rw [value?_ofFragments, List.flatMap_append, valuesOf_append, Kind.layered_append] at hv
    have hnone := (Kind.eq_none_of_mem_merge (h.lacksValue_eq key) hv hlacks).1
    rw [source?_ofFragments_append hnone, source?_ofFragments_append]
    rw [h.layered_eq, hnone]

/-! ### Earlier passes -/

/-- A pass that merged fragments of every kind without a fault. -/
structure EarlierPass where
  config : Configuration
  linked : List Artifact
  fragments : (k : Kind) → List (Fragment k)
  merged : Resources
  merges : ∀ k, mergeFragments (fragments k) = .ok (merged k)

namespace EarlierPass

/-- The artifact of the pass. -/
def artifact (p : EarlierPass) : Artifact :=
  .ofContainers p.config.sourceSet p.config.platform.name (p.config.assemble p.linked p.merged)

theorem ofText?_text_artifact (p : EarlierPass) :
    Artifact.ofText? p.artifact.text = .ok p.artifact := by
  exact p.config.ofText?_text_assemble p.linked
    (fun k => nodup_keys_of_mergeFragments (p.merges k)) _ _

theorem entries_fragment (p : EarlierPass) (k : Kind) :
    (p.artifact.fragment k).entries = p.merged k := by
  rw [artifact, Configuration.fragment_assemble]

/-- What artifacts contribute can take the place of what their passes merged. -/
theorem standsFor (passes : List EarlierPass) (k : Kind) :
    StandsFor ((passes.map artifact).flatMap fun a => (a.fragment k).entries)
      (passes.flatMap fun p => (p.fragments k).flatMap Fragment.entries) := by
  induction passes with
  | nil => exact .nil
  | cons p passes ih =>
    rw [List.map_cons, List.flatMap_cons, List.flatMap_cons, p.entries_fragment]
    exact (standsFor_of_mergeFragments (p.merges k)).append ih

end EarlierPass

/-- **Linking equals one long chain.** The artifacts of earlier passes are read back from their
texts, and merging any fragments over them gives the entries, or the fault, that merging everything
the earlier passes merged with these fragments gives. -/
theorem mergeLinked_eq_mergeFragments (passes : List EarlierPass) :
    ∃ linked, passes.mapM (fun p => Artifact.ofText? p.artifact.text) = .ok linked ∧
      ∀ (k : Kind) (own : List (Fragment k)),
        mergeLinked linked own =
          mergeFragments (passes.flatMap (fun p => p.fragments k) ++ own) := by
  refine ⟨passes.map EarlierPass.artifact,
    mapM_eq_ok_of_forall fun p _ => p.ofText?_text_artifact, fun k own => ?_⟩
  refine mergeFragments_append_congr ?_ own
  rw [List.flatMap_map, List.flatMap_assoc]
  exact EarlierPass.standsFor passes k

/-! ### An icon at two scales -/

namespace Icon

/-- The icon with its file at each of some scales. -/
def entries (files : List (Scale × String)) : List (Entry .images) :=
  [⟨⟨"icon", by decide⟩, OrderedMap.ofList (files.map fun f => (f.1, ⟨⟨f.2⟩, .png⟩))⟩]

def triple : Scale := .raster "3" (by decide)

/-- A pass over two source sets, the second of which replaces a file of the first. -/
def earlier : EarlierPass where
  config := .ofDefaults ⟨⟨"core", by decide⟩, ⟨"core"⟩⟩ ⟨"icons", by decide⟩ (.under ⟨"build"⟩)
  linked := []
  fragments
    | .images => [
        ⟨⟨"base", by decide⟩, entries [(triple, "base/icon@3x.png"), (.unmarked, "base/icon.png")]⟩,
        ⟨⟨"core", by decide⟩, entries [(triple, "core/icon@3x.png")]⟩]
    | .strings => []
    | .plurals => []
    | .colors => []
  merged
    | .images => entries [(triple, "core/icon@3x.png"), (.unmarked, "base/icon.png")]
    | .strings => []
    | .plurals => []
    | .colors => []
  merges k := by cases k <;> rfl

end Icon

theorem mergeLinked_eq_mergeFragments_icon :
    ∃ linked, [Icon.earlier].mapM (fun p => Artifact.ofText? p.artifact.text) = .ok linked ∧
      mergeLinked linked [⟨⟨"watch", by decide⟩, Icon.entries [(.unmarked, "watch/icon.png")]⟩] =
        .ok (Icon.entries [(Icon.triple, "core/icon@3x.png"), (.unmarked, "watch/icon.png")]) := by
  obtain ⟨linked, hread, hmerge⟩ := mergeLinked_eq_mergeFragments [Icon.earlier]
  refine ⟨linked, hread, ?_⟩
  rw [hmerge]
  rfl

end ResourceCompiler
