import ResourceCompiler.Proofs.FileTree.Locality
import ResourceCompiler.Proofs.PathOrder
import ResourceCompiler.Proofs.Source.Patterns

/-!
# Every file of a kind is found once

The files of a kind are all the files below the root of a source set whose relative paths fit a
pattern of the kind. Each is found once, and they are in path order. All directories below the root
are gone through for this, so that nothing is found where the path of one of them is too long.

* `Source.filesMatching`, `Source.collect_eq_ok_iff`: the files of one kind, and those of all kinds.
* `Source.Below`, `Source.Opens`, `Source.Lists`: what lies below a root, whether all of it can be
  gone through, and what is to be found.
* `Source.filesMatching_of_opens`, `Source.filesMatching_of_not_opens`: the two ways that it ends.
* `Source.scan_eq_of_agree`: the order that a tree lists its files in does not matter.
* `Source.filesMatching_spec`: all of it, with what the patterns of the kinds mean.
-/

namespace ResourceCompiler

namespace Source

open FileTree

variable {k : Kind} {s : SourceSet} {t u : FileTree} {l : Location} {n : Node}

/-- The files of a kind below the root of a source set. -/
def filesMatching (k : Kind) (s : SourceSet) (t : FileTree) : Except ScanError (List Path) :=
  (scan s t).map (filesOf k s)

/-- What is collected from source sets are their files of each kind. -/
theorem collect_eq_ok_iff {sets : List SourceSet} {collected : List Collected} :
    collect sets t = .ok collected ↔ List.Forall₂ (fun s c => c.sourceSet = s ∧
      ∀ k, filesMatching k s t = .ok (c.files k)) sets collected := by
  have hone (s : SourceSet) (c : Collected) :
      (do let found ← scan s t; return ⟨s, fun k => filesOf k s found⟩) = Except.ok c ↔
        c.sourceSet = s ∧ ∀ k, filesMatching k s t = .ok (c.files k) := by
    unfold filesMatching
    cases scan s t with
    | error e =>
      refine iff_of_false (fun h => by cases h) fun h => ?_
      cases h.2 .strings
    | ok found =>
      constructor
      · intro h
        obtain rfl := Except.ok.inj h
        exact ⟨rfl, fun k => rfl⟩
      · rintro ⟨rfl, hfiles⟩
        have hall : (fun k => filesOf k c.sourceSet found) = c.files :=
          funext fun k => Except.ok.inj (hfiles k)
        show Except.ok _ = _
        rw [hall]
  rw [collect, mapM_eq_ok_iff]
  simp only [hone]

/-! ### What lies below a root -/

/-- What is at a location below the root of a source set. -/
def Below (s : SourceSet) (t : FileTree) (l : Location) (n : Node) : Prop :=
  l ≠ [] ∧ t.get? (s.root.location ++ l) = some n

/-- Whether each directory below the root of a source set can be opened by its path. -/
def Opens (s : SourceSet) (t : FileTree) : Prop :=
  ∀ l, Below s t l .directory → (pathBelow s l).check = .ok ()

/-- What is to be found of a kind: the paths of all files below the root whose relative paths fit,
each once, in path order. -/
def Lists (k : Kind) (s : SourceSet) (t : FileTree) (files : List Path) : Prop :=
  ∃ found : List Location, files = found.map (pathBelow s) ∧ found.Nodup ∧
    files.Pairwise Path.Before ∧
    ∀ l, l ∈ found ↔ (∃ content, Below s t l (.file content)) ∧ Fits k ("/".intercalate l).toList

/-- What is to be found is one list. -/
theorem Lists.unique {files files' : List Path} (h : Lists k s t files)
    (h' : Lists k s t files') : files = files' := by
  obtain ⟨found, rfl, hnodup, hsorted, hmem⟩ := h
  obtain ⟨found', rfl, hnodup', hsorted', hmem'⟩ := h'
  have hperm : found.Perm found' :=
    (List.perm_ext_iff_of_nodup hnodup hnodup').2 fun l => (hmem l).trans (hmem' l).symm
  refine List.Perm.eq_of_pairwise ?_ hsorted hsorted' (hperm.map (pathBelow s))
  exact fun p q _ _ hpq hqp => absurd hqp hpq.asymm

theorem mem_list_iff_below (h : t.isDirectory s.root = true) :
    (l, n) ∈ t.list s.root ↔ Below s t l n := by
  rw [mem_list_iff, and_iff_right (isDirectory_iff.1 h)]
  rfl

theorem list_eq_nil (h : t.isDirectory s.root = false) : t.list s.root = [] := by
  refine List.eq_nil_iff_forall_not_mem.2 fun e he => ?_
  rw [isDirectory_iff.2 (mem_list_iff.1 he).1] at h
  cases h

theorem Below.isName (hnamed : t.Named) (h : Below s t l n) : ∀ x ∈ l, Path.IsName x := by
  have hthere : t.get? (s.root.location ++ l) ≠ none := by
    rw [h.2]
    exact Option.some_ne_none n
  exact fun x hx => hnamed.isName_of_mem hthere x (List.mem_append_right _ hx)

/-- Files are selected by the names on the way, which are the fields of their relative paths. -/
theorem selects_iff_fits (hnamed : t.Named) (h : Below s t l n) :
    selects k (l.map String.toList) = true ↔ Fits k ("/".intercalate l).toList := by
  rw [fits_iff_selects, Text.fields_intercalate h.1 fun x hx => (h.isName hnamed x hx).1]

/-! ### How scanning ends -/

theorem filesMatching_of_not_isDirectory (h : t.isDirectory s.root = false) :
    filesMatching k s t = .ok [] := by
  have hscan : scan s t = .ok [] := by
    rw [scan_eq_ok_iff, list_eq_nil h, List.mergeSort_nil]
    exact ⟨fun l hl => (List.not_mem_nil hl).elim, rfl⟩
  rw [filesMatching, hscan]
  rfl

theorem exists_lists_of_opens (hnamed : t.Named) (hroot : t.isDirectory s.root = true)
    (hopens : Opens s t) : ∃ files, filesMatching k s t = .ok files ∧ Lists k s t files := by
  obtain ⟨found, hscan⟩ : ∃ found, scan s t = .ok found :=
    ⟨_, scan_eq_ok_iff.2 ⟨fun l hl => hopens l ((mem_list_iff_below hroot).1 hl), rfl⟩⟩
  obtain ⟨hsorted, hnodup, hmem⟩ := found_of_scan hscan
  have hbelow (l : Location) : l ∈ found ↔ ∃ content, Below s t l (.file content) := by
    rw [hmem]
    exact exists_congr fun content => mem_list_iff_below hroot
  have hname : ∀ l ∈ found, ∀ x ∈ l, Path.IsName x := by
    intro l hl
    obtain ⟨content, hfile⟩ := (hbelow l).1 hl
    exact hfile.isName hnamed
  refine ⟨filesOf k s found, by rw [filesMatching, hscan]; rfl, _, rfl, hnodup.filter _, ?_, ?_⟩
  · rw [filesOf, List.pairwise_map]
    refine List.Pairwise.filter _ ((hsorted.and hnodup).imp_of_mem fun {l m} hl hm h => ?_)
    exact (before_pathBelow_iff (hname l hl) (hname m hm)).2 h
  · intro l
    rw [List.mem_filter, hbelow]
    refine and_congr_right fun h => ?_
    obtain ⟨content, hfile⟩ := h
    exact selects_iff_fits hnamed hfile

/-- **If all directories can be opened, all files of a kind are found**, and nothing else. -/
theorem filesMatching_of_opens (hnamed : t.Named) (hroot : t.isDirectory s.root = true)
    (hopens : Opens s t) (k : Kind) : (∃ files, filesMatching k s t = .ok files) ∧
      ∀ files, filesMatching k s t = .ok files ↔ Lists k s t files := by
  obtain ⟨found, hfound, hlists⟩ := exists_lists_of_opens (k := k) hnamed hroot hopens
  refine ⟨⟨found, hfound⟩, fun files => ⟨fun h => ?_, fun h => ?_⟩⟩
  · rw [hfound] at h
    rwa [← Except.ok.inj h]
  · rw [hfound, h.unique hlists]

theorem visit_eq_error_iff {e : Location × Node} {fault : ScanError} :
    visit s e = .error fault ↔ e.2 = .directory ∧ ∃ error,
      (pathBelow s e.1).check = .error error ∧ fault = ⟨s.name, pathBelow s e.1, error⟩ := by
  obtain ⟨l, n⟩ := e
  cases n with
  | file content => simp [visit]
  | directory =>
    simp only [visit]
    cases (pathBelow s l).check with
    | ok => simp
    | error error => simp [eq_comm]

/-- Scanning fails at the first directory that cannot be opened. -/
theorem exists_of_scan_eq_error {fault : ScanError} (h : scan s t = .error fault) :
    ∃ l error, (l, .directory) ∈ t.list s.root ∧ (pathBelow s l).check = .error error ∧
      fault = ⟨s.name, pathBelow s l, error⟩ ∧
      ∀ m, (m, .directory) ∈ t.list s.root → (pathBelow s m).check ≠ .ok () →
        precedes namePrecedes l m = true := by
  have hsorted := pairwise_mergeSort_locations (t.list s.root)
  have hmem (e : Location × Node) :
      e ∈ (t.list s.root).mergeSort (fun a b => precedes namePrecedes a.1 b.1) ↔
        e ∈ t.list s.root := List.mem_mergeSort
  rw [scan] at h
  generalize (t.list s.root).mergeSort _ = sorted at h hsorted hmem
  rcases bind_eq_error h with hvisit | ⟨visited, -, hpure⟩
  · obtain ⟨before, ⟨l, n⟩, after, rfl, hbefore, hl⟩ := exists_of_mapM_eq_error hvisit
    obtain ⟨rfl, error, hcheck, rfl⟩ := visit_eq_error_iff.1 hl
    have hthere : (l, Node.directory) ∈ before ++ (l, .directory) :: after :=
      List.mem_append_right before List.mem_cons_self
    refine ⟨l, error, (hmem _).1 hthere, hcheck, rfl, fun m hm hfails => ?_⟩
    -- a directory that fails as well has not been visited before
    rcases List.mem_append.1 ((hmem _).2 hm) with hearlier | hlater
    · obtain ⟨v, hv⟩ := hbefore _ hearlier
      exact absurd ((visit_eq_ok_iff.1 hv).2 rfl) hfails
    · rcases List.mem_cons.1 hlater with heq | hafter
      · rw [(Prod.mk.inj heq).1]
        exact precedes_refl namePrecedes l
      · exact (List.pairwise_cons.1 (List.pairwise_append.1 hsorted).2.1).1 _ hafter
  · cases hpure

/-- **If a directory cannot be opened, nothing is found**, and the fault is about the first such
directory. -/
theorem filesMatching_of_not_opens (hroot : t.isDirectory s.root = true) (h : ¬ Opens s t) :
    ∃ l error, Below s t l .directory ∧ (pathBelow s l).check = .error error ∧
      (∀ m, Below s t m .directory → (pathBelow s m).check ≠ .ok () →
        precedes namePrecedes l m = true) ∧
      ∀ k, filesMatching k s t = .error ⟨s.name, pathBelow s l, error⟩ := by
  cases hscan : scan s t with
  | ok found =>
    refine absurd (fun l hl => ?_) h
    exact (scan_eq_ok_iff.1 hscan).1 l ((mem_list_iff_below hroot).2 hl)
  | error fault =>
    obtain ⟨l, error, hl, hcheck, rfl, hfirst⟩ := exists_of_scan_eq_error hscan
    refine ⟨l, error, (mem_list_iff_below hroot).1 hl, hcheck, fun m hm hfails => ?_, fun k => ?_⟩
    · exact hfirst m ((mem_list_iff_below hroot).2 hm) hfails
    · rw [filesMatching, hscan]
      rfl

/-! ### The order of a listing -/

/-- **The order that a tree lists its files in does not matter.** -/
theorem scan_eq_of_agree (h : t.Agree u) : scan s u = scan s t := by
  have hmem (e : Location × Node) : e ∈ u.list s.root ↔ e ∈ t.list s.root := by
    have hstat : t.stat s.root = u.stat s.root :=
      stat_congr (A := fun _ => True) (fun l _ => h l) fun _ _ => trivial
    rw [mem_list_iff, mem_list_iff, hstat, h]
  have hperm : (u.list s.root).Perm (t.list s.root) :=
    (List.perm_ext_iff_of_nodup (nodup_list u s.root).of_map (nodup_list t s.root).of_map).2 hmem
  rw [scan, scan]
  refine congrArg (fun es => List.mapM (visit s) es >>= _) ?_
  refine List.Perm.eq_of_pairwise ?_ (pairwise_mergeSort_locations _)
    (pairwise_mergeSort_locations _) ?_
  · -- one location has one node
    intro a b ha hb hab hba
    have hlocation : a.1 = b.1 :=
      (orders_precedes orders_namePrecedes).antisymm a.1 b.1 hab hba
    have hnode : some a.2 = some b.2 := by
      rw [← (mem_list_iff.1 ((hmem a).1 (List.mem_mergeSort.1 ha))).2.2,
        ← (mem_list_iff.1 (List.mem_mergeSort.1 hb)).2.2, hlocation]
    exact Prod.ext hlocation (Option.some.inj hnode)
  · exact (List.mergeSort_perm _ _).trans (hperm.trans (List.mergeSort_perm _ _).symm)

/-! ### What the patterns mean -/

theorem toList_surjective : Function.Surjective String.toList :=
  fun cs => ⟨String.ofList cs, String.toList_ofList⟩

/-- **Documents are known by their names**, in any directory. -/
theorem fits_names_document_iff (hk : k ≠ .images) {directories : Location} {name : String}
    (h : ∀ x ∈ directories ++ [name], '/' ∉ x.toList) :
    Fits k ("/".intercalate (directories ++ [name])).toList ↔
      ∃ middle, name = k.text ++ middle ++ ".xml" := by
  rw [fits_document_iff hk, Text.fields_intercalate (by simp) h, List.map_append,
    List.map_singleton, List.getLast?_concat, toList_surjective.exists]
  refine exists_congr fun middle => ?_
  rw [Option.some.injEq, ← String.toList_append, ← String.toList_append, String.toList_inj]

/-- **Images are known by their endings**, below the directory for images. -/
theorem fits_names_images_iff {directories : Location} {name : String}
    (h : ∀ x ∈ directories ++ [name], '/' ∉ x.toList) :
    Fits .images ("/".intercalate (directories ++ [name])).toList ↔
      directories.head? = some "images" ∧
        ∃ ending ∈ [".png", ".jpg", ".jpeg", ".svg"], ∃ middle, name = middle ++ ending := by
  have hendings : imageEndings = [".png", ".jpg", ".jpeg", ".svg"].map String.toList := rfl
  rw [fits_images_iff, Text.fields_intercalate (by simp) h, List.map_append, List.map_singleton,
    List.getLast?_concat, hendings]
  refine and_congr ?_ ?_
  · cases directories with
    | nil => simp
    | cons first rest =>
      rw [List.map_cons, List.cons_append, List.head?_cons, List.head?_cons, Option.some.injEq,
        Option.some.injEq, String.toList_inj, and_iff_left (by simp)]
  · simp only [List.mem_map, exists_exists_and_eq_and, toList_surjective.exists, Option.some.injEq,
      ← String.toList_append, String.toList_inj]

/-! ### All of it -/

/-- **Every file of a kind is found once.** If a root is no directory, there is nothing. If all
directories below it can be opened, the files of a kind are found; otherwise the fault is about the
first one that cannot. The order of a listing does not matter. Documents are known by their names,
images by their endings and their directory, and no path is of two kinds. -/
theorem filesMatching_spec (hnamed : t.Named) (s : SourceSet) :
    (t.isDirectory s.root = false → ∀ k, filesMatching k s t = .ok []) ∧
      (t.isDirectory s.root = true → Opens s t →
        ∀ k, (∃ files, filesMatching k s t = .ok files) ∧
          ∀ files, filesMatching k s t = .ok files ↔ Lists k s t files) ∧
      (t.isDirectory s.root = true → ¬ Opens s t →
        ∃ l error, Below s t l .directory ∧ (pathBelow s l).check = .error error ∧
          (∀ m, Below s t m .directory → (pathBelow s m).check ≠ .ok () →
            precedes namePrecedes l m = true) ∧
          ∀ k, filesMatching k s t = .error ⟨s.name, pathBelow s l, error⟩) ∧
      (∀ u, t.Agree u → ∀ k, filesMatching k s u = filesMatching k s t) ∧
      (∀ (directories : Location) (name : String), (∀ x ∈ directories ++ [name], '/' ∉ x.toList) →
        (∀ k, k ≠ .images → (Fits k ("/".intercalate (directories ++ [name])).toList ↔
          ∃ middle, name = k.text ++ middle ++ ".xml")) ∧
        (Fits .images ("/".intercalate (directories ++ [name])).toList ↔
          directories.head? = some "images" ∧
            ∃ ending ∈ [".png", ".jpg", ".jpeg", ".svg"], ∃ middle, name = middle ++ ending)) ∧
      ∀ j k path, Fits j path → Fits k path → j = k := by
  refine ⟨fun h k => filesMatching_of_not_isDirectory h,
    fun h hopens => filesMatching_of_opens hnamed h hopens, filesMatching_of_not_opens,
    fun u h k => ?_, fun directories name h => ?_, fun j k path => eq_of_fits⟩
  · rw [filesMatching, filesMatching, scan_eq_of_agree h]
  · exact ⟨fun k hk => fits_names_document_iff hk h, fits_names_images_iff h⟩

end Source

/-! ### Two directories with names that begin alike -/

namespace Atlas

def own : SourceSet := ⟨⟨"atlas", by decide⟩, ⟨"res"⟩⟩

def tree : FileTree where
  nodes := OrderedMap.ofList [(["res"], .directory), (["res", "a"], .directory),
    (["res", "a", "strings.xml"], .file .empty), (["res", "a-b"], .directory),
    (["res", "a-b", "strings.xml"], .file .empty)]
  rooted := by decide +kernel

end Atlas

/-- The file in the directory with the shorter name comes first. -/
theorem Source.filesMatching_spec_atlas : Atlas.tree.Named ∧ Opens Atlas.own Atlas.tree ∧
    filesMatching .strings Atlas.own Atlas.tree =
      .ok [⟨"res/a/strings.xml"⟩, ⟨"res/a-b/strings.xml"⟩] ∧
    Lists .strings Atlas.own Atlas.tree [⟨"res/a/strings.xml"⟩, ⟨"res/a-b/strings.xml"⟩] := by
  have hnamed : Atlas.tree.Named := by decide +kernel
  have hroot : Atlas.tree.isDirectory Atlas.own.root = true := by decide +kernel
  have hlist : Atlas.tree.list Atlas.own.root = [(["a"], .directory),
      (["a", "strings.xml"], .file .empty), (["a-b"], .directory),
      (["a-b", "strings.xml"], .file .empty)] := by
    decide +kernel
  have hopens : Opens Atlas.own Atlas.tree := by
    intro l hl
    rw [← mem_list_iff_below hroot, hlist] at hl
    simp at hl
    rcases hl with rfl | rfl
    · decide
    · decide
  have hfiles : filesMatching .strings Atlas.own Atlas.tree =
      .ok [⟨"res/a/strings.xml"⟩, ⟨"res/a-b/strings.xml"⟩] := by
    rw [filesMatching, scan, hlist, List.mergeSort_of_pairwise (by decide)]
    rfl
  obtain ⟨-, hall, -⟩ := filesMatching_spec hnamed Atlas.own
  exact ⟨hnamed, hopens, hfiles, ((hall hroot hopens .strings).2 _).1 hfiles⟩

/-! ### A root with slashes behind it -/

namespace Slashes

open Source FileTree

/-- A text of slashes. -/
def slashes : Nat → String
  | 0 => ""
  | n + 1 => "/" ++ slashes n

theorem toList_slashes (n : Nat) : (slashes n).toList = List.replicate n '/' := by
  induction n with
  | zero => rfl
  | succ n ih =>
    rw [slashes, String.toList_append, ih]
    rfl

theorem utf8ByteSize_slashes (n : Nat) : (slashes n).utf8ByteSize = n := by
  induction n with
  | zero => rfl
  | succ n ih =>
    rw [slashes, String.utf8ByteSize_append, ih]
    exact Nat.add_comm 1 n

/-- A source set whose root has slashes behind its name. -/
def own (n : Nat) : SourceSet := ⟨⟨"slashesMain", by decide⟩, ⟨"res" ++ slashes n⟩⟩

def tree : FileTree where
  nodes := OrderedMap.ofList [(["res"], .directory), (["res", "base"], .directory),
    (["res", "base", "strings.xml"], .file "<resources/>".toUTF8)]
  rooted := by decide +kernel

theorem toList_root (n : Nat) : (own n).root.text.toList = "res".toList ++ List.replicate n '/' := by
  rw [← toList_slashes, ← String.toList_append]
  rfl

theorem utf8ByteSize_root (n : Nat) : (own n).root.text.utf8ByteSize = n + 3 := by
  show ("res" ++ slashes n).utf8ByteSize = n + 3
  rw [String.utf8ByteSize_append, utf8ByteSize_slashes]
  exact Nat.add_comm 3 n

/-- A path may be as long as paths can be at all. -/
theorem check_root {n : Nat} (h : n + 3 ≤ Path.maxBytes) : (own n).root.check = .ok () := by
  have hnul : '\x00' ∉ (own n).root.text.toList := by
    rw [toList_root]
    simp
  have htext : (own n).root.text ≠ "" := by
    intro hempty
    have hlist := toList_root n
    rw [hempty] at hlist
    cases hlist
  rw [Path.check, if_neg hnul, utf8ByteSize_root, if_neg (Nat.not_lt.2 h), if_neg htext]

theorem locate_root {n : Nat} (h : n + 3 ≤ Path.maxBytes) :
    tree.locate (own n).root = .ok ["res"] := by
  have hsteps : (own n).root.steps = [.down "res"] ++ List.replicate n .stay := by
    rw [Path.steps, Path.segments, toList_root, Text.fields_append_replicate, List.map_append,
      List.map_replicate]
    rfl
  have hwalk : tree.walk [] ([.down "res"] ++ List.replicate n .stay) = .ok ["res"] := by
    rw [walk_append, walk_singleton rfl rfl]
    exact walk_replicate_stay (by decide +kernel) n
  rw [locate_eq_walk (check_root h), hsteps, hwalk]

theorem isDirectory_root {n : Nat} (h : n + 3 ≤ Path.maxBytes) :
    tree.isDirectory (own n).root = true := by
  rw [isDirectory_iff, stat_eq_ok_iff]
  exact ⟨["res"], locate_root h, by decide +kernel⟩

theorem below_iff {n : Nat} (h : n + 3 ≤ Path.maxBytes) {l : Location} {node : Node} :
    Below (own n) tree l node ↔ (l, node) ∈ tree.below ["res"] := by
  rw [mem_below, Below, ← locate_eq_ok (locate_root h)]

/-- What is put behind a slash makes the path longer by its name alone. -/
theorem text_base (n : Nat) :
    (pathBelow (own (n + 1)) ["base"]).text = (own (n + 1)).root.text ++ "base" := by
  have hlast : (own (n + 1)).root.text.toList.getLast? = some '/' := by
    rw [toList_root, List.replicate_succ', ← List.append_assoc, List.getLast?_concat]
  rw [pathBelow, Path.text_join _ (by decide), if_pos (.inr hlast)]
  rfl

theorem check_base {n : Nat} (h : Path.maxBytes < n + 8) :
    (pathBelow (own (n + 1)) ["base"]).check = .error .nameTooLong := by
  have hnul : '\x00' ∉ (pathBelow (own (n + 1)) ["base"]).text.toList := by
    rw [text_base, String.toList_append, toList_root]
    simp
  have hsize : (pathBelow (own (n + 1)) ["base"]).text.utf8ByteSize = n + 8 := by
    rw [text_base, String.utf8ByteSize_append, utf8ByteSize_root]
    rfl
  rw [Path.check, if_neg hnul, hsize, if_pos h]

theorem filesMatching_own {n : Nat} (hroot : n + 4 ≤ Path.maxBytes)
    (hbase : Path.maxBytes < n + 8) (k : Kind) : filesMatching k (own (n + 1)) tree =
      .error ⟨(own (n + 1)).name, pathBelow (own (n + 1)) ["base"], .nameTooLong⟩ := by
  have hlist : tree.below ["res"] = [(["base"], .directory),
      (["base", "strings.xml"], .file "<resources/>".toUTF8)] := by
    decide +kernel
  have hcloses : ¬ Opens (own (n + 1)) tree := by
    intro hopens
    have hcheck := hopens ["base"] ((below_iff hroot).2 (by simp [hlist]))
    rw [check_base hbase] at hcheck
    cases hcheck
  obtain ⟨l, error, hl, hcheck, -, hfails⟩ :=
    filesMatching_of_not_opens (isDirectory_root hroot) hcloses
  obtain rfl : l = ["base"] := by
    rw [below_iff hroot, hlist] at hl
    simpa using hl
  rw [check_base hbase] at hcheck
  rw [hfails k, Except.error.inj hcheck]

end Slashes

/-- A root that can be opened, with a directory that cannot: the file in it is not found. -/
theorem Source.filesMatching_slashes :
    Slashes.tree.Named ∧ Slashes.tree.isDirectory (Slashes.own 4092).root = true ∧
      (∃ content, Below (Slashes.own 4092) Slashes.tree ["base", "strings.xml"] (.file content)) ∧
      Fits .strings ("/".intercalate ["base", "strings.xml"]).toList ∧
      ¬ ∃ files, filesMatching .strings (Slashes.own 4092) Slashes.tree = .ok files := by
  have hroot : 4092 + 3 ≤ Path.maxBytes := by decide
  refine ⟨by decide +kernel, Slashes.isDirectory_root hroot,
    ⟨"<resources/>".toUTF8, (Slashes.below_iff hroot).2 (by decide +kernel)⟩,
    fits_iff_selects.2 (by decide), ?_⟩
  rintro ⟨files, hfiles⟩
  rw [Slashes.filesMatching_own (n := 4091) (by decide) (by decide)] at hfiles
  cases hfiles

end ResourceCompiler
