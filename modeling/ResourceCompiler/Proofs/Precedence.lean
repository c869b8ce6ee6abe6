import ResourceCompiler.Pass.Run
import ResourceCompiler.Proofs.Defaults
import ResourceCompiler.Proofs.Merging
import ResourceCompiler.Proofs.Sequence

/-!
# Precedence

What a pass makes of its declarations, read as one sequence: those of the artifacts it links, then
those of the source sets it builds upon from the furthest to the nearest, then its own.

* `Prevails`: entries that a sequence of declarations comes to.
* `Configuration.DeclaredBy`: a fragment as the files of a source set declare it.
* `merged_by_precedence`: merging gives the entries that prevail, and the fragments that a pass
  builds stand in the order of precedence.
-/

namespace ResourceCompiler

/-- The entries of a kind that the objects of artifacts hold, in order. -/
def linkedEntries (k : Kind) (linked : List Artifact) : List (Entry k) :=
  linked.flatMap fun a => (a.objects.flatMap ResourceObject.values).filterMap (Resource.ofKind? k)

/-- Entries that a sequence of declarations comes to: the keys in the order of their first
declaration, each once, and the values of all declarations of a key laid over each other. -/
structure Prevails {k : Kind} (ds es : List (Entry k)) : Prop where
  keys_eq : es.map Entry.key = (ds.map Entry.key).eraseDups
  isLayering : ∀ e ∈ es, k.IsLayering (valuesOf e.key ds) e.value

theorem flatMap_entries_linked (k : Kind) (linked : List Artifact) (own : List (Fragment k)) :
    (linked.map (Artifact.fragment k) ++ own).flatMap Fragment.entries =
      linkedEntries k linked ++ own.flatMap Fragment.entries := by
  rw [List.flatMap_append, List.flatMap_map]
  rfl

theorem prevails_of_mergeFragments {k : Kind} {fs : List (Fragment k)} {es : List (Entry k)}
    (h : mergeFragments fs = .ok es) : Prevails (fs.flatMap Fragment.entries) es where
  keys_eq := keys_of_mergeFragments h
  isLayering _ he := Kind.isLayering_of_layered (layered_of_mergeFragments h he)

namespace Configuration

/-- A fragment as the files of a kind in a source set declare it. -/
def DeclaredBy (c : Configuration) (t : FileTree) (k : Kind) (s : SourceSet) (f : Fragment k) :
    Prop :=
  f.sourceSet = s.name ∧ ∃ found, Source.scan s t = .ok found ∧
    Source.build c.strictLineBreaks s.name s.root (Source.filesOf k s found) t k = .ok f.entries

theorem declaredBy_of_buildAll {c : Configuration} {t : FileTree} {sets : List SourceSet}
    {collected : List Source.Collected} {built : (k : Kind) → List (Fragment k)}
    (hc : Source.collect sets t = .ok collected)
    (hb : buildAll c.strictLineBreaks collected t = .ok built) (k : Kind) :
    List.Forall₂ (c.DeclaredBy t k) sets (built k) := by
  have hk := (Kind.traverse_eq_ok_iff.1 hb) k
  refine forall₂_trans ?_ (mapM_eq_ok_iff.1 hc) (mapM_eq_ok_iff.1 hk)
  intro s found f hs hf
  cases hscan : Source.scan s t with
  | error e => rw [hscan] at hs; cases hs
  | ok ls =>
    rw [hscan] at hs
    obtain rfl := Except.ok.inj hs
    cases hbuild : Source.build c.strictLineBreaks s.name s.root (Source.filesOf k s ls) t k with
    | error e =>
      simp only [hbuild] at hf
      cases hf
    | ok es =>
      simp only [hbuild] at hf
      obtain rfl := Except.ok.inj hf
      exact ⟨rfl, ls, hscan, hbuild⟩

end Configuration

/-- **Precedence.** Merging fragments over linked artifacts gives the entries that prevail in the
sequence of all declarations, whatever nearer fragments say of a key is upheld, and the fragments
that a pass builds are those of its upper source sets, the nearest last, and then its own. -/
theorem merged_by_precedence (k : Kind) (linked : List Artifact) :
    (∀ (own : List (Fragment k)) (es : List (Entry k)), mergeLinked linked own = .ok es →
      Prevails (linkedEntries k linked ++ own.flatMap Fragment.entries) es ∧
        ∀ far near, own = far ++ near → ∀ e ∈ es, ∀ v,
          k.layered (valuesOf e.key (near.flatMap Fragment.entries)) = some v →
            k.Upholds e.value v) ∧
    (∀ (fs : List (Fragment k)) (es : List (Entry k)), mergeFragments fs = .ok es →
      Prevails (fs.flatMap Fragment.entries) es) ∧
    ∀ (c : Configuration) (t : FileTree) (collected : List Source.Collected)
      (built : (k : Kind) → List (Fragment k)),
      Source.collect c.byPrecedence t = .ok collected →
      Configuration.buildAll c.strictLineBreaks collected t = .ok built →
        List.Forall₂ (c.DeclaredBy t k)
          (c.upperSourceSets.reverse ++ [⟨c.sourceSet, c.ownResources⟩]) (built k) := by
  refine ⟨?_, fun fs es h => prevails_of_mergeFragments h, ?_⟩
  · intro own es h
    constructor
    · rw [← flatMap_entries_linked]
      exact prevails_of_mergeFragments h
    · rintro far near rfl e he v hv
      have hall := layered_of_mergeFragments h he
      rw [← List.append_assoc, List.flatMap_append, valuesOf_append] at hall
      exact Kind.upholds_of_layered_append hv hall
  · intro c t collected built hc hb
    exact Configuration.declaredBy_of_buildAll hc hb k

/-! ### A logo at two scales -/

namespace Logo

def key : Key := ⟨"logo", by decide⟩

def common : SourceSet := ⟨⟨"commonMain", by decide⟩, ⟨"common"⟩⟩

def ios : SourceSet := ⟨⟨"iosMain", by decide⟩, ⟨"ios"⟩⟩

def double : Scale := .raster "2" (by decide)

/-- The logo with its file at each of some scales. -/
def entries (files : List (Scale × String)) : List (Entry .images) :=
  [⟨key, OrderedMap.ofList (files.map fun f => (f.1, ⟨⟨f.2⟩, .png⟩))⟩]

def shared : Artifact :=
  .ofContainers common.name "common" [.node "app.MR.images" (.object .images .expect .exported)
    ((entries [(double, "lib/logo@2x.png"), (.unmarked, "lib/logo.png")]).map fun e => ⟨_, e⟩) []]

/-- One source set builds upon another. -/
def config : Configuration :=
  { Configuration.ofDefaults ios ⟨"app", by decide⟩ (.under ⟨"out"⟩) with
    upperSourceSets := [common] }

/-- Only the own source set has a file. -/
def tree : FileTree where
  nodes := OrderedMap.ofList [(["ios"], .directory), (["ios", "images"], .directory),
    (["ios", "images", "logo@2x.png"], .file .empty)]
  rooted := by decide +kernel

/-- The fragments that the files come to. -/
def built : (k : Kind) → List (Fragment k)
  | .strings => [⟨common.name, []⟩, ⟨ios.name, []⟩]
  | .plurals => [⟨common.name, []⟩, ⟨ios.name, []⟩]
  | .images => [⟨common.name, []⟩, ⟨ios.name, entries [(double, "ios/images/logo@2x.png")]⟩]
  | .colors => [⟨common.name, []⟩, ⟨ios.name, []⟩]

theorem scan_common : Source.scan common tree = .ok [] := by
  have hlist : tree.list common.root = [] := rfl
  rw [Source.scan, hlist, List.mergeSort_nil]
  rfl

theorem scan_ios : Source.scan ios tree = .ok [["images", "logo@2x.png"]] := by
  have hlist : tree.list ios.root =
      [(["images"], .directory), (["images", "logo@2x.png"], .file .empty)] := rfl
  rw [Source.scan, hlist, List.mergeSort_of_pairwise (by decide)]
  rfl

end Logo

theorem merged_by_precedence_logo :
    Prevails
      (Logo.entries [(Logo.double, "lib/logo@2x.png"), (.unmarked, "lib/logo.png")] ++
        (Logo.built .images).flatMap Fragment.entries)
      (Logo.entries [(Logo.double, "ios/images/logo@2x.png"), (.unmarked, "lib/logo.png")]) ∧
    List.Forall₂ (Logo.config.DeclaredBy Logo.tree .images) [Logo.common, Logo.ios]
      (Logo.built .images) := by
  obtain ⟨linked, -, passes⟩ := merged_by_precedence .images [Logo.shared]
  refine ⟨(linked (Logo.built .images) _ rfl).1, passes Logo.config Logo.tree
    [⟨Logo.common, fun k => Source.filesOf k Logo.common []⟩,
      ⟨Logo.ios, fun k => Source.filesOf k Logo.ios [["images", "logo@2x.png"]]⟩]
    Logo.built ?_ ?_⟩
  · rw [Source.collect, mapM_eq_ok_iff]
    refine .cons ?_ (.cons ?_ .nil)
    · rw [Logo.scan_common]
      rfl
    · show Except.bind (Source.scan Logo.ios Logo.tree) _ = _
      rw [Logo.scan_ios]
      rfl
  · rw [Configuration.buildAll, Kind.traverse_eq_ok_iff]
    intro k
    cases k <;> rfl

end ResourceCompiler
