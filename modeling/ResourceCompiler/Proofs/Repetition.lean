import Mathlib.Data.List.Infix
import ResourceCompiler.Proofs.Assembly
import ResourceCompiler.Proofs.Defaults
import ResourceCompiler.Proofs.Growth
import ResourceCompiler.Proofs.Native.Sources
import ResourceCompiler.Proofs.Source.Rereading
import ResourceCompiler.Proofs.Source.Scanning

/-!
# Passes that are repeated

A pass that is run again clears its own output first, and is then where it has been before: no file
of output is taken for a resource, the images that it copies are there, and so are the artifacts
that it links. All that it writes is a function of these, so that it leaves the tree as it was.

* `Configuration.Course.linked_again`, `Configuration.Course.collected_again`,
  `Configuration.Course.built_again`: the same is read.
* `Configuration.Course.generated_again`: the same is written.
* `Configuration.run_again`: the same is left.
-/

namespace ResourceCompiler

open FileAction FileTree Native

variable {c : Configuration} {outcome : Outcome} {s t u' : FileTree} {l : Location} {p : Path}

namespace Store

/-- An artifact is read again where its path leads to what it led to. -/
theorem read_of_stat {a : Artifact} (h : Store.read p t = .ok a)
    (hstat : ∀ n, t.stat p = .ok n → s.stat p = .ok n) : Store.read p s = .ok a := by
  cases htext : t.readText p with
  | error e =>
    rw [Store.read, htext] at h
    cases h
  | ok text =>
    have hsame : Store.read p s = Store.read p t := by
      rw [Store.read, Store.read, readText_of_stat htext hstat, htext]
    rw [hsame, h]

/-- The name of the file beside an artifact ends like none that a resource file has. -/
theorem Settled.ne_temporary (h : Settled t p s) (m : Location) {name : String} {x : Char}
    (hlast : name.toList.getLast? = some x) (hx : x = 'l' ∨ x = 'g') :
    m ++ [name] ≠ (temporary p).location := by
  obtain ⟨as, -, other, -, hbeside, cs, hcs⟩ := h.beside
  rw [Path.location_of_strides hbeside]
  intro heq
  obtain rfl : name = other := List.singleton_inj.1 (List.append_inj_right' heq rfl)
  have hnext : name.toList.getLast? = some 'p' := by
    rw [← hcs]
    exact List.getLast?_append_of_ne_nil cs (by decide)
  rw [hlast] at hnext
  obtain rfl := Option.some.inj hnext
  revert hx
  decide

/-- The file beside an artifact is not selected as a resource file. -/
theorem Settled.ne_temporary_of_selects (h : Settled t p s) {k : Kind}
    (hl : Source.selects k (l.map String.toList) = true) (m : Location) :
    m ++ l ≠ (temporary p).location := by
  obtain ⟨cs, x, hcs, hx, hletter⟩ := Source.getLast?_of_selects hl
  rw [List.getLast?_map, Option.map_eq_some_iff] at hcs
  obtain ⟨name, hname, rfl⟩ := hcs
  obtain ⟨names, rfl⟩ := List.getLast?_eq_some_iff.1 hname
  rw [← List.append_assoc]
  exact h.ne_temporary _ hx hletter

end Store

namespace Configuration.Course

/-! ### What is read -/

/-- What a path leads to apart from the output is there after a pass. -/
theorem stat_after (h : c.Course t outcome s) (hc : c.Repeatable t)
    (hsteady : c.output.Steady t p) (hapart : ¬ c.output.Owns p.location) {n : Node}
    (hn : t.stat p = .ok n) : s.stat p = .ok n := by
  refine stat_of_through hn fun k hk hsome => ?_
  have houtside : ∀ q ∈ c.output.places, ¬ q.location <+: k := by
    intro q hq hpre
    rcases hk.prefix_or_climbs with hend | ⟨m, hm, hkm⟩
    · exact hapart (.inl ⟨q, hq, hpre.trans hend⟩)
    · exact hsteady m hm k hkm (.inl (.inl ⟨q, hq, hpre⟩))
  have hcleared : h.cleared.get? k = t.get? k := by
    rcases (h.readied hc).keepsAt k houtside with hsame | ⟨hnone, -, -⟩
    · exact hsame
    · exact absurd hnone hsome
  have hmetadata : k ≠ c.output.metadata.location := fun heq =>
    houtside _ c.output.metadata_mem_places (heq ▸ List.prefix_rfl)
  have hbeside : k ≠ (Store.temporary c.output.metadata).location := by
    intro heq
    rcases get?_of_through hn hk with hdir | ⟨hend, -⟩
    · refine h.temporary_vacant hc ?_
      rw [← heq, hcleared, hdir]
    · exact hapart (.inr (hend.symm.trans heq))
  have hdirectories : ∀ d ∈ c.output.directories, ¬ d.location <+: k := fun d hd =>
    houtside d (OutputPaths.mem_places_of_mem_directories hd)
  rcases h.get?_after hc hdirectories hmetadata hbeside with hsame | ⟨hnone, -, -⟩
  · rw [hsame, hcleared]
  · rw [hcleared] at hnone
    exact absurd hnone hsome

/-- **The same artifacts are linked.** -/
theorem linked_again (h : c.Course t outcome s) (hc : c.Repeatable t) :
    Store.readAll c.inputMetadata s = .ok h.linked := by
  have hlinked := h.linked_eq
  rw [Store.readAll, mapM_eq_ok_iff] at hlinked ⊢
  refine forall₂_imp_of_mem hlinked fun p hp a _ hread => ?_
  exact Store.read_of_stat hread fun n hn =>
    h.stat_after hc (hc.steady_linked p hp) (hc.linked_apart p hp) hn

/-- What a pass makes to hold its artifact has not been there before. -/
theorem missing_of_made (h : c.Course t outcome s) (hc : c.Repeatable t)
    (hl : c.output.metadata.Leaves l) (hnone : h.cleared.get? l = none) : t.get? l = none := by
  rcases (h.readied hc).keepsAt l ((renewable hc).not_within_of_leaves hl) with
    hsame | ⟨hmissing, -, -⟩
  · rw [← hsame, hnone]
  · exact hmissing

/-- A path that leads to a directory has led there before, or nothing was where it leads. -/
theorem stat_or_missing (h : c.Course t outcome s) (hc : c.Repeatable t)
    (hu : Grown c.output h.cleared u') (hsteady : c.output.Steady t p)
    (hp : u'.stat p = .ok .directory) :
    h.cleared.stat p = .ok .directory ∨ h.cleared.get? p.location = none := by
  by_cases hall : ∀ k, p.Through k → h.cleared.get? k = some .directory
  · refine .inl (stat_of_through hp fun k hk _ => ?_)
    rw [hall k hk, hu.keeps k (hall k hk)]
  · simp only [not_forall] at hall
    obtain ⟨k, hk, hother⟩ := hall
    have hdir : u'.get? k = some .directory := (get?_of_through hp hk).elim id And.right
    have hne : k ≠ (Store.temporary c.output.metadata).location := by
      intro heq
      exact hu.after (heq ▸ hdir)
    rcases hu.get?_of_ne k hne with hsame | ⟨hnone, -, hleaves⟩
    · exact absurd (hsame.symm.trans hdir) hother
    · rcases hk.prefix_or_climbs with hend | ⟨m, hm, hkm⟩
      · exact .inr (get?_eq_none_of_within hnone hend)
      · -- the path would go up from what is made to hold the artifact
        refine absurd ?_ (hsteady m hm k hkm)
        exact .inr ⟨h.missing_of_made hc hleaves hnone, _, c.output.metadata_mem_places,
          hleaves.through⟩

/-- Scanning finds the same resource files. -/
theorem scan_again (h : c.Course t outcome s) (hc : c.Repeatable t)
    (hu : Grown c.output h.cleared u') {x : SourceSet} (hx : x ∈ c.byPrecedence)
    {found : List Location} (hfound : Source.scan x h.cleared = .ok found) :
    ∃ found', Source.scan x u' = .ok found' ∧
      ∀ k, Source.filesOf k x found' = Source.filesOf k x found := by
  have hroot (hstat : u'.stat x.root = .ok .directory) {l : Location} {n : Node}
      (hn : h.cleared.get? (x.root.location ++ l) = some n) :
      h.cleared.stat x.root = .ok .directory := by
    refine (h.stat_or_missing hc hu (hc.steady_root x hx) hstat).resolve_right fun hnone => ?_
    rw [get?_eq_none_of_within hnone (List.prefix_append _ l)] at hn
    cases hn
  have hcheck : ∀ l, (l, .directory) ∈ u'.list x.root →
      (Source.pathBelow x l).check = .ok () := by
    intro l hl
    obtain ⟨hstat, hne, hdir⟩ := mem_list_iff.1 hl
    have hbeside : x.root.location ++ l ≠ (Store.temporary c.output.metadata).location := by
      intro heq
      exact hu.after (heq ▸ hdir)
    rcases hu.get?_of_ne _ hbeside with hsame | ⟨hnone, -, hleaves⟩
    · rw [hsame] at hdir
      exact (Source.scan_eq_ok_iff.1 hfound).1 l (mem_list_iff.2 ⟨hroot hstat hdir, hne, hdir⟩)
    · exact hc.listable x hx l hne hleaves (h.missing_of_made hc hleaves hnone)
  have hscan := Source.scan_eq_ok_iff.2 ⟨hcheck, rfl⟩
  refine ⟨_, hscan, fun k => Source.filesOf_congr hscan hfound fun l hl => ?_⟩
  have hbeside := (Store.settled_of_write h.stored_eq).ne_temporary_of_selects hl x.root.location
  constructor
  · rintro ⟨content, hfile⟩
    obtain ⟨hstat, hne, hget⟩ := mem_list_iff.1 hfile
    rcases hu.get?_of_ne _ hbeside with hsame | ⟨-, hdir, -⟩
    · rw [hsame] at hget
      exact ⟨content, mem_list_iff.2 ⟨hroot hstat hget, hne, hget⟩⟩
    · rw [hget] at hdir
      cases hdir
  · rintro ⟨content, hfile⟩
    obtain ⟨hstat, hne, hget⟩ := mem_list_iff.1 hfile
    exact ⟨content, mem_list_iff.2 ⟨stat_directory_of_keeps hu.keeps hstat, hne,
      hu.get?_of_some hget hbeside⟩⟩

/-- **The same resource files are collected.** -/
theorem collected_again (h : c.Course t outcome s) (hc : c.Repeatable t)
    (hu : Grown c.output h.cleared u') :
    Source.collect c.byPrecedence u' = .ok h.collected :=
  Source.collect_congr h.collected_eq fun _ hx _ hfound => h.scan_again hc hu hx hfound

/-- **The same is built from them.** -/
theorem built_again (h : c.Course t outcome s) (hu : Grown c.output h.cleared u') :
    buildAll c.strictLineBreaks h.collected u' = .ok h.built := by
  refine buildAll_again h.built_eq fun x hx k p hp text htext => ?_
  have hcollected := h.collected_eq
  rw [Source.collect, mapM_eq_ok_iff] at hcollected
  obtain ⟨y, -, hy⟩ := exists_of_mem_right hcollected hx
  obtain ⟨found, -, hfiles⟩ := bind_eq_ok hy
  obtain rfl := Except.ok.inj hfiles
  obtain ⟨l, hl, rfl⟩ := List.mem_map.1 hp
  obtain ⟨as, name, z, hstrides, hz, hletter⟩ :=
    Source.exists_down_of_selects y (List.mem_filter.1 hl).2
  refine readText_of_stat htext fun n hn => hu.stat_of_stat hn ?_
  rw [Path.location_of_strides hstrides]
  exact (Store.settled_of_write h.stored_eq).ne_temporary _ hz hletter

/-! ### What is written -/

/-- The ways to files of output hold what they held. -/
theorem within_of_inside (h : c.Course t outcome s) (hc : c.Repeatable t)
    (hu : Grown c.output h.cleared u') {d : Path} (hd : d ∈ c.output.directories) {o : Output}
    (ho : o.Inside d) : o.path.Within fun l => h.cleared.get? l = u'.get? l := by
  intro k hk
  obtain ⟨names, -, hnames, hpath⟩ := ho
  rw [hpath] at hk
  rcases hk.of_descend hnames with hway | hbelow
  · have hdir : h.cleared.get? k = some .directory :=
      (get?_of_through ((h.readied hc).standing.stat_eq d hd) hway).elim id And.right
    rw [hdir, hu.keeps k hdir]
  · exact (hu.get?_within d hd k hbelow).symm

/-- The way to an image that has been copied holds what it held. -/
theorem within_of_isFile (h : c.Course t outcome s) (hc : c.Repeatable t)
    (hu : Grown c.output h.cleared u') (hp : h.generated.isFile p = true)
    (hbeside : p.location ≠ (Store.temporary c.output.metadata).location) :
    p.Within fun l => h.cleared.get? l = u'.get? l := by
  obtain ⟨outputs, holders, -, -, hwrites, hperformed⟩ := h.performed
  obtain ⟨content, hread⟩ := isFile_iff.1 hp
  intro k hk
  by_cases hin : ∃ d ∈ c.output.directories, d.location <+: k
  · obtain ⟨d, hd, hbelow⟩ := hin
    exact (hu.get?_within d hd k hbelow).symm
  · simp only [not_exists, not_and] at hin
    have hsame : h.generated.get? k = h.cleared.get? k :=
      OutputPaths.get?_of_writes hwrites
        (fun x hx => hperformed.inside (List.mem_append_left _ hx))
        (h.readied hc).standing.stat_eq hin
    rcases get?_of_through (read_eq_ok_iff.1 hread) hk with hdir | ⟨hend, hfile⟩
    · rw [hsame] at hdir
      rw [hdir, hu.keeps k hdir]
    · rw [← hend] at hbeside
      rw [hsame] at hfile
      rw [hfile, hu.get?_of_some hfile hbeside]

/-- **The same output is written** again, on a tree that differs as before. -/
theorem generated_again (h : c.Course t outcome s) (hc : c.Repeatable t)
    (hu : Grown c.output h.cleared u')
    (himages : ∀ e ∈ (outcome.artifact.fragment .images).entries, ∀ v ∈ imageValues e,
      v.2.path.location ≠ (Store.temporary c.output.metadata).location) :
    ∃ v' w', (h.generators.generateResources h.merged).run u' = (.ok h.native, v') ∧
      (h.generators.generateHolder (Container.objects (c.assemble h.linked h.merged))).run v' =
        (.ok h.holder, w') ∧
      AgreeOn (fun l => h.cleared.get? l = u'.get? l) h.held w' := by
  obtain ⟨outputs, holders, hplan, hholders, -, hperformed⟩ := h.performed
  have hinside {x : Output} (hx : x ∈ outputs ++ holders) :
      x.path.Within fun l => h.cleared.get? l = u'.get? l := by
    obtain ⟨d, hd, hxd⟩ := hperformed.inside hx
    exact h.within_of_inside hc hu hd hxd
  have hmem {plan : Plan} {os : List Output} (heq : plan = os.map .ok) {x : Output}
      (hx : .ok x ∈ plan) : x ∈ os := by
    rw [heq] at hx
    obtain ⟨y, hy, hxy⟩ := List.mem_map.1 hx
    rwa [← Except.ok.inj hxy]
  have hcopied : (h.generators.resourcePlan h.merged).Takes
      (Path.Within fun l => h.cleared.get? l = u'.get? l) := by
    obtain ⟨paths, _, hpaths, hdistinct⟩ := run_bind_eq_ok h.native_eq
    obtain ⟨-, rfl⟩ := run_pure_eq_ok hdistinct
    intro o ho
    refine Output.Takes.imp (Plan.isFile_of_perform hpaths o ho)
      (Generators.takes_resourcePlan h.generators_eq h.merged o ho) fun p hfile himage => ?_
    obtain ⟨e, he, v, hv, hpath⟩ := himage
    have hentry : e ∈ (outcome.artifact.fragment .images).entries := by
      rw [h.artifact_eq, fragment_assemble]
      exact he
    have hbeside := himages e hentry v hv
    rw [hpath] at hbeside
    exact h.within_of_isFile hc hu hfile hbeside
  have hresources : IsLocal (fun l => h.cleared.get? l = u'.get? l)
      (h.generators.generateResources h.merged) := by
    refine IsLocal.bind (Plan.isLocal_perform (fun o ho => ?_) hcopied) fun _ => .pure _
    exact hinside (List.mem_append_left _ (hmem hplan ho))
  have hholder : IsLocal (fun l => h.cleared.get? l = u'.get? l)
      (h.generators.generateHolder (Container.objects (c.assemble h.linked h.merged))) := by
    refine Plan.isLocal_perform (fun o ho => ?_) (Generators.takes_holder h.generators_eq _)
    exact hinside (List.mem_append_right _ (hmem hholders ho))
  obtain ⟨v', hv', hgenerated⟩ := hresources.exists_run_eq (fun _ hl => hl) h.native_eq
  obtain ⟨w', hw', hheld⟩ := hholder.exists_run_eq hgenerated h.holder_eq
  exact ⟨v', w', hv', hw', hheld⟩

/-- **The same artifact is stored** behind the same output. -/
theorem stored_again (h : c.Course t outcome s) (hc : c.Repeatable t)
    (hu : Grown c.output h.cleared u') {native holder : List Path} {v' w' : FileTree}
    (hnative : (h.generators.generateResources h.merged).run u' = (.ok native, v'))
    (hholder : (h.generators.generateHolder (Container.objects (c.assemble h.linked h.merged))).run
      v' = (.ok holder, w'))
    (hheld : AgreeOn (fun l => h.cleared.get? l = u'.get? l) h.held w') :
    ∃ s', (Store.write c.output.metadata outcome.artifact).run w' = (.ok (), s') ∧ s'.Agree s := by
  obtain ⟨outputs, holders, hplan, hholders, -, hperformed⟩ := h.performed
  obtain ⟨outputs', holders', hplan', hholders', -, -, hfirst, hlast⟩ :=
    Generators.exists_writes hnative hholder
  have hinjective : Function.Injective (Except.ok : Output → Except GenerateError Output) :=
    fun _ _ => Except.ok.inj
  obtain rfl := List.map_injective_iff.2 hinjective (hplan.symm.trans hplan')
  obtain rfl := List.map_injective_iff.2 hinjective (hholders.symm.trans hholders')
  have hwrites := hfirst.append hlast
  refine Store.exists_write_again h.stored_eq (fun k hk => ?_) (fun k hk hway => ?_) ?_
  · exact hwrites.keeps k (hu.get?_leaves k hk)
  · refine (hheld k ?_).symm
    rcases hu.get?_of_ne k hk with hsame | ⟨-, -, hleaves⟩
    · exact hsame.symm
    · exact absurd hleaves hway
  · rw [OutputPaths.get?_of_writes hwrites (fun x hx => hperformed.inside hx)
      (fun d hd => stat_directory_of_keeps hu.keeps ((h.readied hc).standing.stat_eq d hd))
      fun d hd => h.temporary_apart hc hd]
    exact hu.after

end Configuration.Course

namespace Configuration

/-- **A pass that is run again changes nothing.** It succeeds with the same artifact and the same
list of files, and everything in the tree is as the first run left it. The images that the artifact
names and the artifacts that are linked have to lie apart from the output; resource files may lie
anywhere. -/
theorem run_again (hc : c.Repeatable t) (h : c.run.run t = (.ok outcome, s))
    (himages : ∀ e ∈ (outcome.artifact.fragment .images).entries, ∀ v ∈ imageValues e,
      ¬ c.output.Owns v.2.path.location) :
    ∃ s', c.run.run s = (.ok outcome, s') ∧ s'.Agree s := by
  obtain ⟨course⟩ := exists_course_of_run h
  obtain ⟨u', hclear, hgrown⟩ := course.exists_clear_again hc
  obtain ⟨v', w', hnative, hholder, hheld⟩ :=
    course.generated_again hc hgrown fun e he v hv hbeside => himages e he v hv (.inr hbeside)
  obtain ⟨s', hstore, hagree⟩ := course.stored_again hc hgrown hnative hholder hheld
  have hagain : c.Course s outcome s' :=
    { generators := course.generators
      linked := course.linked
      cleared := u'
      collected := course.collected
      built := course.built
      merged := course.merged
      native := course.native
      generated := v'
      holder := course.holder
      held := w'
      generators_eq := course.generators_eq
      linked_eq := course.linked_again hc
      cleared_eq := hclear
      collected_eq := course.collected_again hc hgrown
      built_eq := course.built_again hgrown
      merged_eq := course.merged_eq
      native_eq := hnative
      holder_eq := hholder
      stored_eq := hstore
      artifact_eq := course.artifact_eq
      written_eq := course.written_eq }
  exact ⟨s', hagain.run_eq, hagree⟩

end Configuration

/-! ### Output below the resources -/

/-- Resources that are images alone. -/
def imagesAlone (images : List (Entry .images)) : Resources
  | .strings => []
  | .plurals => []
  | .images => images
  | .colors => []

namespace Crest

/-- A pass whose output goes below its resources, which hold an image. -/
def config : Configuration :=
  { Configuration.ofDefaults ⟨⟨"crestMain", by decide⟩, ⟨"crest"⟩⟩ ⟨"crest", by decide⟩
      ⟨⟨"crest/out/native"⟩, ⟨"crest/out/pictures"⟩, ⟨"crest/out/source"⟩,
        ⟨"crest/out/metadata.json"⟩⟩ with
    platform := .js }

def tree : FileTree where
  nodes := OrderedMap.ofList [(["crest"], .directory), (["crest", "images"], .directory),
    (["crest", "images", "crest.png"], .file .empty)]
  rooted := by decide +kernel

def entry : Entry .images :=
  ⟨⟨"crest", by decide⟩, OrderedMap.ofList [(.unmarked, ⟨⟨"crest/images/crest.png"⟩, .png⟩)]⟩

def artifact : Artifact :=
  .ofContainers config.sourceSet config.platform.name
    (config.assemble [] (imagesAlone [entry]))

/-- The copy of the image. -/
def copy : Path := ⟨"crest/out/native/images/crest.png"⟩

def generators : Generators := ⟨Js.plan config.package config.output.resources, fun _ => []⟩

/-- The tree with the output cleared. -/
def cleared : FileTree := (config.output.clear.run tree).2

/-- The tree with the copy. -/
def generated : FileTree :=
  ((generators.generateResources (imagesAlone [entry])).run cleared).2

theorem run_tree : config.run.run tree = (.ok ⟨artifact, [copy]⟩,
    ((Store.write config.output.metadata artifact).run generated).2) := by
  have hlist : cleared.list config.own.root =
      [(["images"], .directory), (["images", "crest.png"], .file .empty), (["out"], .directory),
        (["out", "native"], .directory), (["out", "pictures"], .directory),
        (["out", "source"], .directory)] := by decide +kernel
  have hfound : Source.scan config.own cleared = .ok [["images", "crest.png"]] := by
    rw [Source.scan, hlist, List.mergeSort_of_pairwise (by decide)]
    rfl
  have hnative : ((generators.generateResources (imagesAlone [entry])).run cleared).1 =
      .ok [copy] := by decide +kernel
  refine Configuration.run_eq_of_own (g := generators) (u := cleared) rfl rfl rfl
    (run_eq_of_isOk (by decide +kernel)) hfound ?_ ?_ (run_eq_of_fst hnative)
    (run_pure [] generated) rfl (run_eq_of_isOk (by decide +kernel))
  · intro k
    cases k <;> rfl
  · intro k
    cases k <;> rfl

theorem repeatable : config.Repeatable tree := by
  refine Configuration.repeatable_of_isPlain (by decide +kernel) (by decide +kernel)
    (by decide +kernel) (List.forall_mem_nil _) (fun x hx l hl => ?_) tree
  obtain rfl := List.mem_singleton.1 hx
  have hmetadata : config.output.metadata.location =
      config.own.root.location ++ ["out", "metadata.json"] := by decide +kernel
  rw [hmetadata] at hl
  have hnames : l ∈ ["out", "metadata.json"].inits :=
    (List.mem_inits _ _).2 ((List.prefix_append_right_inj _).1 hl)
  have hall : ∀ l ∈ ["out", "metadata.json"].inits,
      (Source.pathBelow config.own l).check = .ok () := by decide +kernel
  exact hall l hnames

end Crest

/-- The image is copied again, though its copy lies below the resources as well. -/
theorem run_again_crest :
    ∃ s s', Crest.config.run.run Crest.tree = (.ok ⟨Crest.artifact, [Crest.copy]⟩, s) ∧
      Crest.config.run.run s = (.ok ⟨Crest.artifact, [Crest.copy]⟩, s') ∧ s'.Agree s := by
  have himages : ∀ e ∈ (Crest.artifact.fragment .images).entries, ∀ v ∈ imageValues e,
      ¬ Crest.config.output.Owns v.2.path.location := by
    rw [Crest.artifact, Configuration.fragment_assemble]
    decide +kernel
  obtain ⟨s', hagain, hagree⟩ :=
    Configuration.run_again Crest.repeatable Crest.run_tree himages
  exact ⟨_, s', Crest.run_tree, hagain, hagree⟩

/-! ### Resources behind the output -/

namespace Detour

/-- A pass that gets to its resources through the directory of its artifact. -/
def config : Configuration :=
  .ofDefaults ⟨⟨"detourMain", by decide⟩, ⟨"meta/../common"⟩⟩ ⟨"detour", by decide⟩
    ⟨⟨"out/res"⟩, ⟨"out/assets"⟩, ⟨"out/src"⟩, ⟨"meta/metadata.json"⟩⟩

def tree : FileTree where
  nodes := OrderedMap.ofList [(["common"], .directory), (["common", "images"], .directory),
    (["common", "images", "signpost.png"], .file .empty)]
  rooted := by decide +kernel

def entry : Entry .images :=
  ⟨⟨"signpost", by decide⟩,
    OrderedMap.ofList [(.unmarked, ⟨⟨"meta/../common/images/signpost.png"⟩, .png⟩)]⟩

/-- The artifact of a pass that finds some images. -/
def artifact (images : List (Entry .images)) : Artifact :=
  .ofContainers config.sourceSet config.platform.name (config.assemble [] (imagesAlone images))

/-- The tree with the output cleared. -/
def cleared : FileTree := (config.output.clear.run tree).2

/-- The tree that the first pass leaves. -/
def stored : FileTree := ((Store.write config.output.metadata (artifact [])).run cleared).2

/-- The tree with the output cleared again. -/
def clearedAgain : FileTree := (config.output.clear.run stored).2

/-- The first pass finds no way to the resources. -/
theorem run_tree : config.run.run tree = (.ok ⟨artifact [], []⟩, stored) := by
  have hlist : cleared.list config.own.root = [] := by decide +kernel
  have hfound : Source.scan config.own cleared = .ok [] := by
    rw [Source.scan, hlist, List.mergeSort_nil]
    rfl
  refine Configuration.run_eq_of_own (g := .none) (u := cleared) rfl rfl rfl
    (run_eq_of_isOk (by decide +kernel)) hfound ?_ ?_ (run_pure [] cleared) (run_pure [] cleared)
    rfl (run_eq_of_isOk (by decide +kernel))
  · intro k
    cases k <;> rfl
  · intro k
    cases k <;> rfl

/-- The second pass finds one, through the directory that the first pass has made. -/
theorem run_stored : ∃ s, config.run.run stored = (.ok ⟨artifact [entry], []⟩, s) := by
  have hlist : clearedAgain.list config.own.root =
      [(["images"], .directory), (["images", "signpost.png"], .file .empty)] := by decide +kernel
  have hfound : Source.scan config.own clearedAgain = .ok [["images", "signpost.png"]] := by
    rw [Source.scan, hlist, List.mergeSort_of_pairwise (by decide)]
    rfl
  refine ⟨_, Configuration.run_eq_of_own (g := .none) (u := clearedAgain) rfl rfl rfl
    (run_eq_of_isOk (by decide +kernel)) hfound ?_ ?_ (run_pure [] clearedAgain)
    (run_pure [] clearedAgain) rfl (run_eq_of_isOk (by decide +kernel))⟩
  · intro k
    cases k <;> rfl
  · intro k
    cases k <;> rfl

end Detour

/-- Where the way to the resources goes up from what a pass makes, a pass that is run again can find
more, though its output lies apart, nothing is there before, and it takes no images and links
nothing. -/
theorem run_again_detour :
    ∃ outcome s, Detour.config.output.Exclusive ∧ Detour.config.inputMetadata = [] ∧
      (∀ l, Detour.config.output.Owns l → Detour.tree.get? l = none) ∧
      (outcome.artifact.fragment .images).entries = [] ∧
      Detour.config.run.run Detour.tree = (.ok outcome, s) ∧
      ¬ ∃ s', Detour.config.run.run s = (.ok outcome, s') ∧ s'.Agree s := by
  refine ⟨_, _, by decide +kernel, rfl, ?_, ?_, Detour.run_tree, ?_⟩
  · have hplaces : ∀ p ∈ Detour.config.output.places, Detour.tree.get? p.location = none := by
      decide +kernel
    have hbeside : Detour.tree.get? (Store.temporary Detour.config.output.metadata).location =
        none := by decide +kernel
    rintro l (⟨p, hp, hpre⟩ | heq)
    · exact get?_eq_none_of_within (hplaces p hp) hpre
    · rw [heq, hbeside]
  · rw [Detour.artifact, Configuration.fragment_assemble]
    rfl
  · rintro ⟨s', hagain, -⟩
    obtain ⟨s₂, hsecond⟩ := Detour.run_stored
    rw [hsecond] at hagain
    have hartifact : Detour.artifact [Detour.entry] = Detour.artifact [] :=
      congrArg Outcome.artifact (Except.ok.inj (Prod.mk.inj hagain).1)
    have hentries : [Detour.entry] = [] := by
      have hfragment := congrArg (fun a => (a.fragment .images).entries) hartifact
      simp only [Detour.artifact, Configuration.fragment_assemble] at hfragment
      exact hfragment
    cases hentries

end ResourceCompiler
