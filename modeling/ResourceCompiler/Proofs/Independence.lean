import ResourceCompiler.Proofs.FileTree.Variation
import ResourceCompiler.Proofs.Precedence
import ResourceCompiler.Proofs.Provision
import ResourceCompiler.Proofs.Repetition
import ResourceCompiler.Proofs.Source.Rereading
import ResourceCompiler.Proofs.Source.Scanning

/-!
# Kinds that are independent

The files of a kind only matter to the objects of the kind. No file is of two kinds, so that two
trees that differ in files of one kind have the same files of the others; clearing output leaves it
so, and from then on each kind is worked on by itself.

* `Source.eq_of_selects`: no file is of two kinds.
* `FileTree.Named`, `Source.location_pathBelow`: where the path of a file leads.
* `Configuration.Feeds`: the files of a kind that a pass may find.
* `Configuration.DeclaredBy.eq_of_varyOn`: fragments of the other kinds.
* `Configuration.objects_eq_of_varyOn`: objects of the other kinds.
-/

namespace ResourceCompiler

open FileTree

/-! ### Files of kinds -/

namespace Source

/-- **No file is of two kinds**, wherever the source sets have their roots. -/
theorem eq_of_selects {j k : Kind} {parts parts' : List (List Char)}
    (hj : selects j parts = true) (hk : selects k parts' = true)
    (hlast : parts.getLast? = parts'.getLast?) : j = k := by
  obtain ⟨name, hname, hj⟩ := ends_of_selects hj
  obtain ⟨name', hname', hk⟩ := ends_of_selects hk
  obtain rfl : name = name' := Option.some.inj (hname.symm.trans (hlast.trans hname'))
  have hletters : (some 'g' : Option Char) ≠ some 'l' := by decide
  rcases hj with ⟨rfl, hg⟩ | ⟨hdocument, hl, hfirst⟩
  · rcases hk with ⟨rfl, -⟩ | ⟨-, hl, -⟩
    · rfl
    · exact absurd (hg.symm.trans hl) hletters
  · rcases hk with ⟨rfl, hg⟩ | ⟨hdocument', -, hfirst'⟩
    · exact absurd (hg.symm.trans hl) hletters
    · -- the words for the kinds of documents start differently
      have hword : ∀ j k : Kind, j ≠ .images → k ≠ .images →
          j.text.toList.head? = k.text.toList.head? → j = k := by
        intro j k
        cases j <;> cases k <;> decide
      exact hword j k hdocument hdocument' (hfirst.symm.trans hfirst')

end Source

/-! ### Where files lie -/

/-- Whether the names in a tree name something: none is empty, holds a slash, or is one or two dots.
File systems have no other names. -/
def FileTree.Named (t : FileTree) : Prop := ∀ l ∈ t.nodes.keys, ∀ s ∈ l, Path.IsName s

instance (t : FileTree) : Decidable t.Named :=
  inferInstanceAs (Decidable (∀ l ∈ t.nodes.keys, ∀ s ∈ l, Path.IsName s))

theorem FileTree.Named.isName_of_mem {t : FileTree} (h : t.Named) {l : Location}
    (hl : t.get? l ≠ none) : ∀ s ∈ l, Path.IsName s := by
  by_cases hroot : l = []
  · subst hroot
    exact List.forall_mem_nil _
  · refine h l ?_
    rw [get?_of_ne_nil t hroot, Ne, OrderedMap.get?_eq_none_iff, not_not] at hl
    exact hl

/-- Names with slashes between them are the fields of a text. -/
theorem Text.fields_intercalate {names : List String} (hne : names ≠ [])
    (h : ∀ s ∈ names, '/' ∉ s.toList) :
    Text.fields '/' ("/".intercalate names).toList = names.map String.toList := by
  induction names with
  | nil => exact absurd rfl hne
  | cons a names ih =>
    rw [List.forall_mem_cons] at h
    cases names with
    | nil =>
      rw [String.intercalate_singleton, Text.fields_of_not_mem h.1]
      rfl
    | cons b names =>
      have htext : ("/".intercalate (a :: b :: names)).toList =
          a.toList ++ '/' :: ("/".intercalate (b :: names)).toList := by
        rw [String.intercalate_cons_cons, String.toList_append, String.toList_append,
          List.append_assoc]
        rfl
      rw [htext, Text.fields_append_sep h.1, ih (List.cons_ne_nil b names) h.2]
      rfl

namespace Path

theorem isAbsolute_intercalate {names : List String} (h : ∀ s ∈ names, IsName s) :
    (⟨"/".intercalate names⟩ : Path).isAbsolute = false := by
  cases names with
  | nil => rfl
  | cons a names =>
    obtain ⟨x, hx⟩ : ∃ x, "/".intercalate (a :: names) = a ++ x := by
      cases names with
      | nil => exact ⟨"", by rw [String.intercalate_singleton, String.append_empty]⟩
      | cons b names =>
        exact ⟨"/" ++ "/".intercalate (b :: names), by
          rw [String.intercalate_cons_cons, String.append_assoc]⟩
    have ha : IsName a := h a List.mem_cons_self
    have hne : a.toList ≠ [] := fun hnil => ha.2.1 (String.toList_injective hnil)
    have hfirst := isAbsolute_of_isName ha
    rw [isAbsolute] at hfirst ⊢
    rw [hx, String.toList_append, List.head?_append_of_ne_nil _ hne, hfirst]

/-- Names with slashes between them lead down, one after the other. -/
theorem strides_intercalate {names : List String} (h : ∀ s ∈ names, IsName s) :
    (⟨"/".intercalate names⟩ : Path).strides = names.map .down := by
  cases names with
  | nil => rfl
  | cons a names =>
    rw [strides, segments,
      Text.fields_intercalate (List.cons_ne_nil a names) fun s hs => (h s hs).1]
    generalize a :: names = names at h
    induction names with
    | nil => rfl
    | cons b names ih =>
      rw [List.forall_mem_cons] at h
      rw [List.map_cons, ← List.singleton_append, stridesOf_append, ih h.2,
        stridesOf_singleton h.1.isIdle, h.1.ofSegment]
      rfl

end Path

/-- The path of a file below the root of a source set leads to the file. -/
theorem Source.location_pathBelow (s : SourceSet) {l : Location} (h : ∀ n ∈ l, Path.IsName n) :
    (pathBelow s l).location = s.root.location ++ l := by
  rw [pathBelow, Path.location_eq_foldl_strides,
    Path.strides_join _ (Path.isAbsolute_intercalate h), List.foldl_append,
    Path.strides_intercalate h, Path.foldl_from_map_down, ← Path.location_eq_foldl_strides]

namespace Configuration

open Source

variable {c : Configuration} {j k : Kind} {t t' u u' s s' : FileTree}

/-! ### Fragments of other kinds -/

/-- Whether a file at a location would be one of a kind to a pass: it lies below the root of a
source set, where its path is that of a file of the kind, and it is no artifact that the pass
links. -/
def Feeds (c : Configuration) (k : Kind) (l : Location) : Prop :=
  (∃ x ∈ c.byPrecedence, ∃ below : Location,
    selects k (below.map String.toList) = true ∧ l = x.root.location ++ below) ∧
  ∀ p ∈ c.inputMetadata, l ≠ p.location

theorem getLast?_append_of_selects {l : Location} (h : selects k (l.map String.toList) = true)
    (m : Location) : ((m ++ l).map String.toList).getLast? = (l.map String.toList).getLast? := by
  have hne : l.map String.toList ≠ [] := by
    intro hnil
    rw [hnil] at h
    cases h
  rw [List.map_append, List.getLast?_append_of_ne_nil _ hne]

/-- Where a file of another kind lies, nothing differs. -/
theorem get?_eq_of_selects (h : VaryOn (c.Feeds k) u u') (hne : j ≠ k) (x : SourceSet)
    {l : Location} (hl : selects j (l.map String.toList) = true) :
    u.get? (x.root.location ++ l) = u'.get? (x.root.location ++ l) := by
  refine h.get?_eq_of_not_mem ?_
  rintro ⟨⟨y, -, below, hbelow, heq⟩, -⟩
  refine hne (eq_of_selects hl hbelow ?_)
  rw [← getLast?_append_of_selects hl x.root.location, heq,
    getLast?_append_of_selects hbelow y.root.location]

theorem filesOf_eq_of_varyOn {x : SourceSet} {found found' : List Location}
    (hvary : VaryOn (c.Feeds k) u u') (hne : j ≠ k) (h : scan x u = .ok found)
    (h' : scan x u' = .ok found') : filesOf j x found = filesOf j x found' := by
  refine filesOf_congr h h' fun l hl => ?_
  have hroot : u.stat x.root = .ok .directory ↔ u'.stat x.root = .ok .directory := by
    rw [← isDirectory_iff, ← isDirectory_iff, hvary.isDirectory_eq]
  simp only [mem_list_iff, hroot, get?_eq_of_selects hvary hne x hl]

/-- The path of a file of another kind leads to the file, where nothing differs. -/
theorem sameText_of_mem_filesOf {x : SourceSet} {found : List Location} {p : Path}
    (hnamed : t.Named) (hkept : t.KeepsFiles u) (hvary : VaryOn (c.Feeds k) u u') (hne : j ≠ k)
    (h : scan x u = .ok found) (hp : p ∈ filesOf j x found) : SameText u u' p := by
  intro text htext
  obtain ⟨l, hl, rfl⟩ := List.mem_map.1 hp
  obtain ⟨hl, hselects⟩ := List.mem_filter.1 hl
  obtain ⟨content, hfile⟩ := ((found_of_scan h).2.2 l).1 hl
  obtain ⟨-, -, hget⟩ := mem_list_iff.1 hfile
  have hthere : t.get? (x.root.location ++ l) ≠ none := by
    rw [hkept _ content hget]
    exact Option.some_ne_none _
  have hnames : ∀ n ∈ l, Path.IsName n := fun n hn =>
    hnamed.isName_of_mem hthere n (List.mem_append_right x.root.location hn)
  refine readText_of_stat htext fun n hn => hvary.stat_of_stat hn ?_
  rw [location_pathBelow x hnames]
  exact get?_eq_of_selects hvary hne x hselects

/-- **A source set declares the same of the other kinds.** -/
theorem DeclaredBy.eq_of_varyOn {x : SourceSet} {f f' : Fragment j} (hnamed : t.Named)
    (hkept : t.KeepsFiles u) (hvary : VaryOn (c.Feeds k) u u') (hne : j ≠ k)
    (h : c.DeclaredBy u j x f) (h' : c.DeclaredBy u' j x f') : f = f' := by
  obtain ⟨hname, found, hfound, hbuild⟩ := h
  obtain ⟨hname', found', hfound', hbuild'⟩ := h'
  have hagain := build_again hbuild fun p hp =>
    sameText_of_mem_filesOf hnamed hkept hvary hne hfound hp
  rw [filesOf_eq_of_varyOn hvary hne hfound hfound', hbuild'] at hagain
  obtain ⟨name, es⟩ := f
  obtain ⟨name', es'⟩ := f'
  obtain rfl : name = x.name := hname
  obtain rfl : name' = x.name := hname'
  obtain rfl : es' = es := Except.ok.inj hagain
  rfl

/-! ### Objects of other kinds -/

/-- Artifacts are linked that do not differ. -/
theorem readAll_of_varyOn (h : VaryOn (c.Feeds k) t t') {linked : List Artifact}
    (hlinked : Store.readAll c.inputMetadata t = .ok linked) :
    Store.readAll c.inputMetadata t' = .ok linked := by
  rw [Store.readAll, mapM_eq_ok_iff] at hlinked ⊢
  refine forall₂_imp_of_mem hlinked fun p hp a _ hread => ?_
  refine Store.read_of_stat hread fun n hn => h.stat_of_stat hn (h.get?_eq_of_not_mem ?_)
  exact fun hfeeds => hfeeds.2 p hp rfl

/-- The objects of the other kinds do not depend on the entries of a kind. -/
theorem filter_objects_assemble {linked : List Artifact} {merged merged' : Resources}
    (h : ∀ j, j ≠ k → merged j = merged' j) :
    (Container.objects (c.assemble linked merged)).filter (fun o => o.type ≠ k) =
      (Container.objects (c.assemble linked merged')).filter fun o => o.type ≠ k := by
  have hobjects (m : Resources) :
      (Container.objects (c.assemble linked m)).filter (fun o => o.type ≠ k) =
        Kind.all.filterMap fun j =>
          ((c.objectOf? linked j (m j)).bind Container.object?).filter fun o => o.type ≠ k := by
    rw [Container.objects, walkAll_assemble, assemble, List.filterMap_filterMap,
      List.filter_filterMap]
  have hnone (m : Resources) :
      ((c.objectOf? linked k (m k)).bind Container.object?).filter (fun o => o.type ≠ k) =
        none := by
    rw [Option.filter_eq_none_iff]
    intro o ho
    obtain ⟨-, rfl⟩ := object?_objectOf?_eq_some_iff.1 ho
    simp [object]
  rw [hobjects, hobjects]
  refine List.filterMap_congr fun j _ => ?_
  by_cases hj : j = k
  · subst hj
    rw [hnone, hnone]
  · rw [h j hj]

/-- **Kinds are independent.** If two trees differ in nothing but files that would be of one kind to
a pass, and the pass succeeds on both, then its artifacts have the same objects of the other kinds,
in the same order. -/
theorem objects_eq_of_varyOn (hnamed : t.Named) (hvary : VaryOn (c.Feeds k) t t')
    {outcome outcome' : Outcome} (h : c.run.run t = (.ok outcome, s))
    (h' : c.run.run t' = (.ok outcome', s')) :
    outcome.artifact.objects.filter (fun o => o.type ≠ k) =
      outcome'.artifact.objects.filter fun o => o.type ≠ k := by
  obtain ⟨a⟩ := exists_course_of_run h
  obtain ⟨b⟩ := exists_course_of_run h'
  have hlinked : a.linked = b.linked :=
    Except.ok.inj ((readAll_of_varyOn hvary a.linked_eq).symm.trans b.linked_eq)
  have hcleared : VaryOn (c.Feeds k) a.cleared b.cleared := hvary.clear a.cleared_eq b.cleared_eq
  have hbuilt : ∀ j, j ≠ k → a.built j = b.built j := by
    intro j hj
    have ha := declaredBy_of_buildAll a.collected_eq a.built_eq j
    have hb := declaredBy_of_buildAll b.collected_eq b.built_eq j
    have heach : List.Forall₂ Eq (a.built j) (b.built j) := by
      refine forall₂_trans (fun f x f' hf hf' => ?_) ha.flip hb
      exact DeclaredBy.eq_of_varyOn hnamed (keepsFiles_of_clear a.cleared_eq) hcleared hj hf hf'
    rwa [List.forall₂_eq_eq_eq] at heach
  have hmerged : ∀ j, j ≠ k → a.merged j = b.merged j := by
    intro j hj
    have ha := Kind.traverse_eq_ok_iff.1 a.merged_eq j
    have hb := Kind.traverse_eq_ok_iff.1 b.merged_eq j
    rw [hlinked, hbuilt j hj, hb] at ha
    exact (Except.ok.inj ha).symm
  rw [Artifact.objects, Artifact.objects, a.containers_eq, b.containers_eq, hlinked]
  exact filter_objects_assemble hmerged

end Configuration

/-! ### The emblem with a caption -/

namespace Emblem

open FileAction

def captions : Location := ["emblem", "strings.xml"]

/-- The tree with a file of strings beside the image. -/
def captioned : FileTree :=
  tree.insert captions
    (.file "<resources><string name=\"caption\">Emblem</string></resources>".toUTF8)
    (by decide +kernel) (by decide +kernel)

/-- The tree with the output of the pass cleared. -/
def captionedCleared : FileTree := (first.output.clear.run captioned).2

def caption : Entry .strings :=
  ⟨⟨"caption", by decide⟩, OrderedMap.ofList [(.base, "Emblem")]⟩

def mergedCaption : Resources
  | .strings => [caption]
  | .plurals => []
  | .images => [entry]
  | .colors => []

/-- The artifact of the pass over that tree. -/
def artifactCaption : Artifact :=
  .ofContainers first.sourceSet first.platform.name (first.assemble [] mergedCaption)

theorem run_captioned : ∃ s, first.run.run captioned = (.ok ⟨artifactCaption, []⟩, s) := by
  have hlist : captionedCleared.list first.own.root =
      [(["images"], .directory), (["images", "emblem.png"], .file .empty),
        (["strings.xml"],
          .file "<resources><string name=\"caption\">Emblem</string></resources>".toUTF8)] := by
    decide +kernel
  have hfound : Source.scan first.own captionedCleared =
      .ok [["images", "emblem.png"], ["strings.xml"]] := by
    rw [Source.scan, hlist, List.mergeSort_of_pairwise (by decide)]
    rfl
  refine ⟨((Store.write first.output.metadata artifactCaption).run captionedCleared).2,
    Configuration.run_eq_of_own (g := .none) (u := captionedCleared) rfl rfl rfl
      (run_eq_of_isOk (by decide +kernel)) hfound ?_ ?_ (run_pure [] captionedCleared)
      (run_pure [] captionedCleared) rfl (run_eq_of_isOk (by decide +kernel))⟩
  · intro k
    cases k with
    | strings => decide +kernel
    | plurals => rfl
    | images => rfl
    | colors => rfl
  · intro k
    cases k <;> rfl

end Emblem

/-- With a caption beside it the emblem is in the same object, behind the one with the caption. -/
theorem Configuration.objects_eq_of_varyOn_emblem :
    Emblem.first.object [] .strings [Emblem.caption] ∈ Emblem.artifactCaption.objects ∧
      Emblem.artifact.objects.filter (fun o => o.type ≠ .strings) =
        Emblem.artifactCaption.objects.filter fun o => o.type ≠ .strings := by
  have hcaption : Emblem.first.object [] .strings [Emblem.caption] ∈
      Container.objects (Emblem.first.assemble [] Emblem.mergedCaption) := by
    refine mem_objects_assemble_iff.2 ⟨.strings, ?_, rfl⟩
    intro hnil
    cases hnil
  refine ⟨hcaption, ?_⟩
  have hfeeds : Emblem.first.Feeds .strings Emblem.captions := by
    refine ⟨⟨Emblem.first.own, ?_, ["strings.xml"], by decide, rfl⟩, List.forall_mem_nil _⟩
    exact List.mem_singleton_self _
  have hvary : VaryOn (Emblem.first.Feeds .strings) Emblem.tree Emblem.captioned := by
    intro l
    rw [Emblem.captioned, get?_insert]
    split
    · rename_i heq
      subst heq
      exact .inr ⟨hfeeds, by decide +kernel, nofun⟩
    · exact .inl rfl
  obtain ⟨s, hcaptioned⟩ := Emblem.run_captioned
  exact objects_eq_of_varyOn (by decide +kernel) hvary Emblem.run_first hcaptioned

end ResourceCompiler
