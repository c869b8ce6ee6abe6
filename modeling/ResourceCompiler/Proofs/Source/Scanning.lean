import Mathlib.Data.List.Nodup
import ResourceCompiler.Proofs.FileTree.Removal
import ResourceCompiler.Proofs.Sequence
import ResourceCompiler.Source.Collect

/-!
# What scanning finds

The files of a source set are found in the order of their locations, which is the same however the
tree lists them. So scanning finds the same where the same files are below the root of the source
set, and every directory there can be gone through.

* `Source.Orders`, `Source.orders_precedes`: comparisons that leave one order only.
* `Source.scan_eq_ok_iff`, `Source.found_of_scan`: what scanning finds, and when it does.
* `Source.filesOf_congr`, `Source.collect_congr`: the same files found in two trees.
-/

namespace ResourceCompiler

namespace FileTree

variable {t : FileTree} {p : Path} {l : Location}

/-- What a listing holds is below the directory that the path leads to. -/
theorem mem_list_iff {e : Location × Node} : e ∈ t.list p ↔
    t.stat p = .ok .directory ∧ e.1 ≠ [] ∧ t.get? (p.location ++ e.1) = some e.2 := by
  rw [list]
  cases hl : t.locate p with
  | error e' =>
    refine iff_of_false List.not_mem_nil fun h => ?_
    obtain ⟨k, hk, -⟩ := stat_eq_ok_iff.1 h.1
    rw [hl] at hk
    cases hk
  | ok k =>
    obtain rfl := locate_eq_ok hl
    dsimp only
    split
    · rename_i hdir
      rw [mem_below, iff_true_intro (stat_eq_ok_iff.2 ⟨_, hl, hdir⟩), true_and]
    · rename_i hother
      exact iff_of_false List.not_mem_nil fun h => hother (get?_of_stat h.1)

/-- Nothing is listed twice. -/
theorem nodup_below (t : FileTree) (l : Location) : ((t.below l).map Prod.fst).Nodup := by
  have hkeys : ((t.below l).map Prod.fst).map (l ++ ·) =
      (t.nodes.entries.filter fun e => l.isPrefixOf e.1 ∧ e.1 ≠ l).map Prod.fst := by
    rw [below, List.map_filterMap, List.map_filterMap, ← List.filterMap_eq_map,
      List.filterMap_filter]
    refine List.filterMap_congr fun e _ => ?_
    obtain ⟨k, n⟩ := e
    dsimp only [Function.comp_apply]
    by_cases h : l.isPrefixOf k = true ∧ k ≠ l
    · rw [if_pos h, if_pos (decide_eq_true h)]
      obtain ⟨r, rfl⟩ := List.isPrefixOf_iff_prefix.1 h.1
      rw [Option.map_some, Option.map_some, List.drop_left]
    · rw [if_neg h, if_neg (by rwa [decide_eq_true_iff])]
      rfl
  refine List.Nodup.of_map (l ++ ·) ?_
  rw [hkeys]
  exact t.nodes.distinct.sublist (List.filter_sublist.map Prod.fst)

theorem nodup_list (t : FileTree) (p : Path) : ((t.list p).map Prod.fst).Nodup := by
  rw [list]
  split
  · split
    · exact nodup_below t _
    · exact List.nodup_nil
  · exact List.nodup_nil

end FileTree

namespace Source

open FileTree

/-! ### The order of locations -/

/-- Whether a comparison leaves one order only. -/
structure Orders {α : Type} (before : α → α → Bool) : Prop where
  total : ∀ a b, a ≠ b → before a b = true ∨ before b a = true
  antisymm : ∀ a b, before a b = true → before b a = true → a = b
  trans : ∀ a b c, before a b = true → before b c = true → before a c = true

theorem precedes_refl {α : Type} [DecidableEq α] (before : α → α → Bool) (as : List α) :
    precedes before as as = true := by
  induction as with
  | nil => rfl
  | cons a as ih => rw [precedes, if_pos rfl, ih]

/-- Lists are in order if their items are. -/
theorem orders_precedes {α : Type} [DecidableEq α] {before : α → α → Bool} (h : Orders before) :
    Orders (precedes before) where
  total := by
    intro as
    induction as with
    | nil => exact fun bs _ => .inl (by cases bs <;> rfl)
    | cons a as ih =>
      intro bs hne
      cases bs with
      | nil => exact .inr rfl
      | cons b bs =>
        rw [precedes, precedes]
        by_cases hab : a = b
        · subst hab
          rw [if_pos rfl, if_pos rfl]
          exact ih bs fun heq => hne (by rw [heq])
        · rw [if_neg hab, if_neg (Ne.symm hab)]
          exact h.total a b hab
  antisymm := by
    intro as
    induction as with
    | nil =>
      intro bs _ hba
      cases bs with
      | nil => rfl
      | cons b bs => cases hba
    | cons a as ih =>
      intro bs hab hba
      cases bs with
      | nil => cases hab
      | cons b bs =>
        rw [precedes] at hab hba
        by_cases heq : a = b
        · subst heq
          rw [if_pos rfl] at hab hba
          rw [ih bs hab hba]
        · rw [if_neg heq] at hab
          rw [if_neg (Ne.symm heq)] at hba
          exact absurd (h.antisymm a b hab hba) heq
  trans := by
    intro as
    induction as with
    | nil => exact fun _ cs _ _ => by cases cs <;> rfl
    | cons a as ih =>
      intro bs cs hab hbc
      cases bs with
      | nil => cases hab
      | cons b bs =>
        cases cs with
        | nil => cases hbc
        | cons c cs =>
          rw [precedes] at hab hbc ⊢
          by_cases hfirst : a = b
          · subst hfirst
            rw [if_pos rfl] at hab
            by_cases hlast : a = c
            · subst hlast
              rw [if_pos rfl] at hbc ⊢
              exact ih bs cs hab hbc
            · rw [if_neg hlast] at hbc ⊢
              exact hbc
          · rw [if_neg hfirst] at hab
            by_cases hlast : b = c
            · subst hlast
              rw [if_neg hfirst]
              exact hab
            · rw [if_neg hlast] at hbc
              -- the way back to the first item would make the first two the same
              have hac : a ≠ c := by
                intro heq
                subst heq
                exact hfirst (h.antisymm a b hab hbc)
              rw [if_neg hac]
              exact h.trans a b c hab hbc

theorem orders_codePoints : Orders fun c d : Char => decide (c.toNat < d.toNat) where
  total := by
    intro a b hne
    have hnat : a.toNat ≠ b.toNat := fun heq => hne (Char.toNat_inj.1 heq)
    simp only [decide_eq_true_eq]
    omega
  antisymm := by
    intro _ _ hab hba
    rw [decide_eq_true_eq] at hab hba
    exact absurd (Nat.lt_trans hab hba) (Nat.lt_irrefl _)
  trans := by
    intro _ _ _ hab hbc
    rw [decide_eq_true_eq] at hab hbc ⊢
    exact Nat.lt_trans hab hbc

theorem orders_namePrecedes : Orders namePrecedes where
  total := fun _ _ hne =>
    (orders_precedes orders_codePoints).total _ _ fun heq => hne (String.toList_injective heq)
  antisymm := fun _ _ hab hba =>
    String.toList_injective ((orders_precedes orders_codePoints).antisymm _ _ hab hba)
  trans := fun _ _ _ => (orders_precedes orders_codePoints).trans _ _ _

/-! ### Scanning -/

variable {s : SourceSet} {t u : FileTree} {found found' : List Location} {k : Kind}

/-- The location of a file, if it is one. -/
def fileOf? (e : Location × Node) : Option Location :=
  match e.2 with
  | .file _ => some e.1
  | .directory => none

theorem fileOf?_eq_some_iff {e : Location × Node} {l : Location} :
    fileOf? e = some l ↔ ∃ content, e = (l, .file content) := by
  obtain ⟨k, n⟩ := e
  cases n with
  | directory => simp [fileOf?]
  | file content => simp [fileOf?]

theorem sublist_filterMap_fileOf? (es : List (Location × Node)) :
    (es.filterMap fileOf?).Sublist (es.map Prod.fst) := by
  induction es with
  | nil => exact .slnil
  | cons e es ih =>
    obtain ⟨l, n⟩ := e
    cases n with
    | directory => exact ih.cons l
    | file content => exact ih.cons_cons l

theorem visit_eq_ok_iff {e : Location × Node} {v : Option Location} :
    visit s e = .ok v ↔
      v = fileOf? e ∧ (e.2 = .directory → (pathBelow s e.1).check = .ok ()) := by
  obtain ⟨l, n⟩ := e
  cases n with
  | file content => simp [visit, fileOf?, eq_comm]
  | directory =>
    simp only [visit, fileOf?]
    cases (pathBelow s l).check with
    | ok => simp [eq_comm]
    | error e => simp

/-- Scanning finds the files below the root in order, if all directories can be gone through. -/
theorem scan_eq_ok_iff : scan s t = .ok found ↔
    (∀ l, (l, .directory) ∈ t.list s.root → (pathBelow s l).check = .ok ()) ∧
      ((t.list s.root).mergeSort fun a b => precedes namePrecedes a.1 b.1).filterMap fileOf? =
        found := by
  generalize hsorted : (t.list s.root).mergeSort _ = sorted
  have hmem (e : Location × Node) : e ∈ sorted ↔ e ∈ t.list s.root := by
    rw [← hsorted, List.mem_mergeSort]
  have hscan : scan s t =
      (sorted.mapM (visit s) >>= fun visited => .ok (visited.filterMap id)) := by
    rw [scan, hsorted]
    rfl
  have hfiles : sorted.filterMap fileOf? = (sorted.map fileOf?).filterMap id := by
    rw [List.filterMap_map, Function.id_comp]
  rw [hscan]
  constructor
  · intro h
    obtain ⟨visited, hvisited, hfound⟩ := bind_eq_ok h
    have hall := mapM_eq_ok_iff.1 hvisited
    have hsame : sorted.map fileOf? = visited := by
      have heach : List.Forall₂ Eq (sorted.map fileOf?) visited :=
        List.forall₂_map_left_iff.2 (hall.imp fun _ _ hv => (visit_eq_ok_iff.1 hv).1.symm)
      rwa [List.forall₂_eq_eq_eq] at heach
    refine ⟨fun l hl => ?_, ?_⟩
    · obtain ⟨v, -, hv⟩ := exists_of_mem_right hall.flip ((hmem _).2 hl)
      exact (visit_eq_ok_iff.1 hv).2 rfl
    · rw [hfiles, hsame]
      exact Except.ok.inj hfound
  · rintro ⟨hcheck, rfl⟩
    have hvisited : sorted.mapM (visit s) = .ok (sorted.map fileOf?) := by
      refine mapM_eq_ok_of_forall fun e he => visit_eq_ok_iff.2 ⟨rfl, fun hdir => ?_⟩
      refine hcheck e.1 ?_
      rw [← hdir]
      exact (hmem e).1 he
    rw [hvisited, hfiles]
    rfl

/-- What lies below a root is gone through in the order of locations. -/
theorem pairwise_mergeSort_locations (es : List (Location × Node)) :
    (es.mergeSort fun a b => precedes namePrecedes a.1 b.1).Pairwise fun a b =>
      precedes namePrecedes a.1 b.1 = true := by
  have horder : Orders (precedes namePrecedes) := orders_precedes orders_namePrecedes
  refine List.pairwise_mergeSort (fun a b c => horder.trans a.1 b.1 c.1) (fun a b => ?_) es
  rw [Bool.or_eq_true]
  by_cases hab : a.1 = b.1
  · refine .inl ?_
    rw [hab, precedes_refl]
  · exact horder.total a.1 b.1 hab

/-- What scanning finds is in order, and it is the files below the root, each found once. -/
theorem found_of_scan (h : scan s t = .ok found) :
    found.Pairwise (fun l k => precedes namePrecedes l k = true) ∧ found.Nodup ∧
      ∀ l, l ∈ found ↔ ∃ content, (l, .file content) ∈ t.list s.root := by
  obtain ⟨-, rfl⟩ := scan_eq_ok_iff.1 h
  let before (a b : Location × Node) : Bool := precedes namePrecedes a.1 b.1
  have hsorted : ((t.list s.root).mergeSort before).Pairwise (fun a b => before a b = true) :=
    pairwise_mergeSort_locations (t.list s.root)
  have hnodup : (((t.list s.root).mergeSort before).map Prod.fst).Nodup :=
    ((List.mergeSort_perm _ _).map Prod.fst).nodup_iff.2 (nodup_list t s.root)
  have hmem (e : Location × Node) : e ∈ (t.list s.root).mergeSort before ↔ e ∈ t.list s.root :=
    List.mem_mergeSort
  show List.Pairwise _ (((t.list s.root).mergeSort before).filterMap fileOf?) ∧ _
  generalize (t.list s.root).mergeSort before = sorted at hsorted hnodup hmem ⊢
  have hsub := sublist_filterMap_fileOf? sorted
  refine ⟨(List.pairwise_map.2 hsorted).sublist hsub, hnodup.sublist hsub, fun l => ?_⟩
  rw [List.mem_filterMap]
  constructor
  · rintro ⟨e, he, hfile⟩
    obtain ⟨content, rfl⟩ := fileOf?_eq_some_iff.1 hfile
    exact ⟨content, (hmem _).1 he⟩
  · rintro ⟨content, hfile⟩
    exact ⟨_, (hmem _).2 hfile, rfl⟩

/-- The same files of a kind are found in two trees that have the same ones below the root. -/
theorem filesOf_congr (h : scan s t = .ok found) (h' : scan s u = .ok found')
    (hsame : ∀ l, selects k (l.map String.toList) = true →
      ((∃ content, (l, .file content) ∈ t.list s.root) ↔
        ∃ content, (l, .file content) ∈ u.list s.root)) :
    filesOf k s found = filesOf k s found' := by
  obtain ⟨hsorted, hnodup, hmem⟩ := found_of_scan h
  obtain ⟨hsorted', hnodup', hmem'⟩ := found_of_scan h'
  rw [filesOf, filesOf]
  congr 1
  refine List.Perm.eq_of_pairwise ?_ (hsorted.filter _) (hsorted'.filter _) ?_
  · intro a b _ _
    exact (orders_precedes orders_namePrecedes).antisymm a b
  · refine (List.perm_ext_iff_of_nodup (hnodup.filter _) (hnodup'.filter _)).2 fun l => ?_
    rw [List.mem_filter, List.mem_filter, hmem, hmem']
    exact and_congr_left fun hselects => hsame l hselects

/-- The same is collected from two trees where scanning finds the same files of every kind. -/
theorem collect_congr {sets : List SourceSet} {collected : List Collected}
    (h : collect sets t = .ok collected)
    (hsame : ∀ s ∈ sets, ∀ found, scan s t = .ok found →
      ∃ found', scan s u = .ok found' ∧ ∀ k, filesOf k s found' = filesOf k s found) :
    collect sets u = .ok collected := by
  rw [collect, mapM_eq_ok_iff] at h ⊢
  refine forall₂_imp_of_mem h fun s hs b _ hb => ?_
  obtain ⟨found, hfound, hb⟩ := bind_eq_ok hb
  obtain ⟨found', hfound', hfiles⟩ := hsame s hs found hfound
  rw [← hb, hfound']
  show Except.ok _ = Except.ok _
  rw [funext hfiles]

end Source

end ResourceCompiler
