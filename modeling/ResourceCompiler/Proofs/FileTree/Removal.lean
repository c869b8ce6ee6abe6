import ResourceCompiler.Proofs.FileTree.Running
import ResourceCompiler.Proofs.FileTree.Walking

/-!
# Removing what is at a path

Removing works on a directory from below: it is emptied, and then removed by itself. Nothing is left
at the path, unless dots name the directory there, which then stays behind empty.

* `FileTree.emptied`, `FileTree.get?_emptied`: a tree with a directory emptied.
* `FileTree.Irremovable`: the directories that stay behind.
* `FileTree.removeDirectory_emptied`: the single request for a directory that has been emptied.
* `holds_removeAll_iff`: what removing leaves.
-/

namespace ResourceCompiler

open FileAction

namespace FileTree

variable {t : FileTree} {l k m : Location} {p : Path}

/-! ### Emptied directories -/

/-- The tree without what is below a location. -/
def emptied (t : FileTree) (l : Location) : FileTree :=
  (t.below l).foldl (fun t e => t.prune (l ++ e.1)) t

theorem get?_foldl_prune (es : List (Location × Node)) (t : FileTree) (l : Location)
    (hk : k ≠ []) :
    (es.foldl (fun t e => t.prune (l ++ e.1)) t).get? k =
      if ∃ e ∈ es, l ++ e.1 <+: k then none else t.get? k := by
  induction es generalizing t with
  | nil => simp
  | cons e es ih =>
    rw [List.foldl_cons, ih, get?_prune t _ _ hk]
    by_cases he : l ++ e.1 <+: k
    · simp [he]
    · simp only [List.isPrefixOf_iff_prefix, he, if_false, List.mem_cons, exists_eq_or_imp,
        false_or]

theorem mem_below {e : Location × Node} :
    e ∈ t.below l ↔ e.1 ≠ [] ∧ t.get? (l ++ e.1) = some e.2 := by
  rw [below, List.mem_filterMap]
  constructor
  · rintro ⟨⟨k, n⟩, hk, h⟩
    dsimp only at h
    split at h
    · rename_i hbelow
      obtain ⟨r, rfl⟩ := List.isPrefixOf_iff_prefix.1 hbelow.1
      obtain rfl := Option.some.inj h
      have hne : l ++ r ≠ [] := (t.rooted _ (List.mem_map_of_mem hk)).1
      rw [List.drop_left, get?_of_ne_nil t hne]
      refine ⟨?_, OrderedMap.mem_entries_iff.1 hk⟩
      rintro rfl
      exact hbelow.2 (List.append_nil l)
    · cases h
  · rintro ⟨hne, hget⟩
    have hne' : l ++ e.1 ≠ [] := by simp [hne]
    rw [get?_of_ne_nil t hne'] at hget
    refine ⟨(l ++ e.1, e.2), OrderedMap.mem_entries_iff.2 hget, ?_⟩
    have hbelow : l.isPrefixOf (l ++ e.1) = true ∧ l ++ e.1 ≠ l := by simp [hne]
    dsimp only
    rw [if_pos hbelow, List.drop_left]

/-- Exactly what is below the location is gone. -/
theorem get?_emptied (t : FileTree) (l k : Location) :
    (t.emptied l).get? k = if l <+: k ∧ l ≠ k then none else t.get? k := by
  by_cases hk : k = []
  · subst hk
    rw [if_neg]
    · rfl
    · rintro ⟨hpre, hne⟩
      exact hne (List.prefix_nil.1 hpre)
  · rw [emptied, get?_foldl_prune _ _ _ hk]
    by_cases hbelow : l <+: k ∧ l ≠ k
    · rw [if_pos hbelow]
      obtain ⟨⟨r, rfl⟩, hne⟩ := hbelow
      cases hget : t.get? (l ++ r) with
      | none => exact ite_self none
      | some n =>
        have hr : r ≠ [] := by
          rintro rfl
          exact hne (List.append_nil l).symm
        exact if_pos ⟨(r, n), mem_below.2 ⟨hr, hget⟩, List.prefix_rfl⟩
    · rw [if_neg hbelow, if_neg]
      rintro ⟨e, he, r, rfl⟩
      have hne := (mem_below.1 he).1
      exact hbelow ⟨by rw [List.append_assoc]; exact List.prefix_append _ _, by simp [hne]⟩

theorem isPart_emptied (t : FileTree) (l : Location) : (t.emptied l).IsPart t := by
  intro k
  rw [get?_emptied]
  split
  · exact .inl rfl
  · exact .inr rfl

theorem below_emptied (t : FileTree) (l : Location) : (t.emptied l).below l = [] := by
  rw [List.eq_nil_iff_forall_not_mem]
  intro e he
  obtain ⟨hne, hget⟩ := mem_below.1 he
  rw [get?_emptied, if_pos ⟨List.prefix_append l e.1, by simp [hne]⟩] at hget
  cases hget

theorem not_holds_prune (hne : p.location ≠ []) : ¬ (t.prune p.location).Holds p := by
  rintro ⟨n, hn⟩
  obtain ⟨l, hl, hget⟩ := stat_eq_ok_iff.1 hn
  obtain rfl := locate_eq_ok hl
  rw [get?_prune t _ _ hne, if_pos (List.isPrefixOf_iff_prefix.2 List.prefix_rfl)] at hget
  cases hget

/-! ### Single requests -/

/-- Whether a path leads to a directory that it cannot be used to remove: dots name the directory,
and the path does not lead through what is below it. -/
structure Irremovable (t : FileTree) (p : Path) : Prop where
  stat_eq : t.stat p = .ok .directory
  lastStep_ne : ∀ name, p.lastStep ≠ .down name
  holds_emptied : (t.emptied p.location).Holds p

/-- Removing a directory that has been emptied fails where dots name it, finds nothing where the
path led through what was below it, and leaves nothing otherwise. -/
theorem removeDirectory_emptied (h : t.stat p = .ok .directory) :
    (t.Irremovable p ∧
        ∃ e, (t.emptied p.location).removeDirectory p = .error e ∧ e ≠ .notFound) ∨
      (¬ (t.emptied p.location).Holds p ∧
        (t.emptied p.location).removeDirectory p = .error .notFound) ∨
      ∃ name s, p.lastStep = .down name ∧ (t.emptied p.location).removeDirectory p = .ok s ∧
        ¬ s.Holds p := by
  obtain ⟨l, hl, hget⟩ := stat_eq_ok_iff.1 h
  obtain rfl := locate_eq_ok hl
  obtain ⟨m, hm, hlong, hlast⟩ := locateHolder_of_locate hl
  have hdir : (t.emptied p.location).get? p.location = some .directory := by
    rw [get?_emptied, if_neg fun hbelow => hbelow.2 rfl, hget]
  rcases locateHolder_of_isPart (isPart_emptied t p.location) hm with hholder | hmissing
  · have hlocate := locate_of_locateHolder hholder hlong (hlast ▸ hdir)
    rw [← hlast] at hlocate
    have hholds : (t.emptied p.location).Holds p := ⟨_, stat_eq_ok_iff.2 ⟨_, hlocate, hdir⟩⟩
    cases hstep : p.lastStep with
    | stay =>
      refine .inl ⟨⟨h, by simp [hstep], hholds⟩, .invalidArgument, ?_, by decide⟩
      simp only [removeDirectory, hholder, hstep, bind, Except.bind]
      rfl
    | up =>
      refine .inl ⟨⟨h, by simp [hstep], hholds⟩, .notEmpty, ?_, by decide⟩
      simp only [removeDirectory, hholder, hstep, bind, Except.bind]
      rfl
    | down name =>
      have hname := locateName_of_locateHolder hholder hlong
      rw [← hlast] at hname
      have hne : p.location ≠ [] := by
        rw [hlast, hstep]
        exact List.append_ne_nil_of_right_ne_nil m (List.cons_ne_nil name [])
      refine .inr (.inr ⟨name, (t.emptied p.location).prune p.location, rfl, ?_,
        not_holds_prune hne⟩)
      simp only [removeDirectory, hholder, hstep, hname, hdir, below_emptied, bind, Except.bind]
      rfl
  · refine .inr (.inl ⟨?_, ?_⟩)
    · rintro ⟨n, hn⟩
      obtain ⟨k, hk, -⟩ := stat_eq_ok_iff.1 hn
      obtain ⟨m', hm', -, -⟩ := locateHolder_of_locate hk
      rw [hmissing] at hm'
      cases hm'
    · simp only [removeDirectory, hmissing, bind, Except.bind]

end FileTree

open FileTree

variable {t : FileTree} {p : Path}

/-! ### Removing what is at a path -/

theorem ifPresent_eq_ok {x : FileAction FileError Unit} {s : FileTree}
    (h : x.run t = (.ok (), s) ∨ x.run t = (.error .notFound, s)) :
    (ifPresent x).run t = (.ok (), s) := by
  rw [FileAction.run] at h
  rcases h with h | h
  all_goals
    simp only [ifPresent, FileAction.run, bind, FileAction.bind, attempt, h]
    rfl

theorem ifPresent_eq_error {x : FileAction FileError Unit} {s : FileTree} {e : FileError}
    (h : x.run t = (.error e, s)) (he : e ≠ .notFound) : (ifPresent x).run t = (.error e, s) := by
  rw [FileAction.run] at h
  simp only [ifPresent, FileAction.run, bind, FileAction.bind, attempt, h]
  cases e with
  | notFound => exact absurd rfl he
  | _ => rfl

theorem run_removeTree (h : t.stat p = .ok .directory) :
    (removeTree p).run t = (ifPresent (change fun t => t.removeDirectory p)).run
      (t.emptied p.location) := by
  obtain ⟨l, hl, -⟩ := stat_eq_ok_iff.1 h
  obtain rfl := locate_eq_ok hl
  simp only [removeTree, FileAction.run, bind, FileAction.bind, examine, hl]
  rfl

theorem run_removeAll_of_isDirectory (h : t.isDirectory p = true) :
    (removeAll p).run t = (ifPresent (removeTree p)).run t := by
  simp only [removeAll, FileAction.run, bind, FileAction.bind, ask, h]
  rfl

theorem run_removeAll_of_not_isDirectory (h : t.isDirectory p = false) :
    (removeAll p).run t = (ifPresent (change fun t => t.removeFile p)).run t := by
  simp only [removeAll, FileAction.run, bind, FileAction.bind, ask, h]
  rfl

/-- Removing either succeeds and leaves nothing, or it fails. -/
theorem removeAll_outcome (t : FileTree) (p : Path) :
    (∃ s, (removeAll p).run t = (.ok (), s) ∧ ¬ s.Holds p ∧ ¬ t.Irremovable p) ∨
      ∃ s e, (removeAll p).run t = (.error e, s) ∧ (s.Holds p ↔ t.Irremovable p) := by
  cases hdir : t.isDirectory p with
  | true =>
    have hstat := isDirectory_iff.1 hdir
    rw [run_removeAll_of_isDirectory hdir]
    rcases removeDirectory_emptied hstat with
      ⟨hstuck, e, he, hne⟩ | ⟨hempty, hmissing⟩ | ⟨name, s, hname, hs, hempty⟩
    · refine .inr ⟨_, e, ?_, iff_of_true hstuck.holds_emptied hstuck⟩
      refine ifPresent_eq_error ?_ hne
      rw [run_removeTree hstat]
      exact ifPresent_eq_error (run_change_error he) hne
    · refine .inl ⟨_, ifPresent_eq_ok (.inl ?_), hempty, fun hstuck => hempty hstuck.holds_emptied⟩
      rw [run_removeTree hstat]
      exact ifPresent_eq_ok (.inr (run_change_error hmissing))
    · have hloose : ¬ t.Irremovable p := by
        intro hstuck
        exact hstuck.lastStep_ne name hname
      refine .inl ⟨s, ifPresent_eq_ok (.inl ?_), hempty, hloose⟩
      rw [run_removeTree hstat]
      exact ifPresent_eq_ok (.inl (run_change_ok hs))
  | false =>
    have hloose : ¬ t.Irremovable p := by
      intro hstuck
      rw [isDirectory_iff.2 hstuck.stat_eq] at hdir
      cases hdir
    rw [run_removeAll_of_not_isDirectory hdir]
    cases hstat : t.stat p with
    | error e =>
      have hempty : ¬ t.Holds p := by
        rintro ⟨n, hn⟩
        rw [hstat] at hn
        cases hn
      have hremove : t.removeFile p = .error e := by
        simp only [removeFile, hstat, bind, Except.bind]
      by_cases he : e = .notFound
      · subst he
        exact .inl ⟨t, ifPresent_eq_ok (.inr (run_change_error hremove)), hempty, hloose⟩
      · exact .inr ⟨t, e, ifPresent_eq_error (run_change_error hremove) he,
          iff_of_false hempty hloose⟩
    | ok n =>
      cases n with
      | directory =>
        rw [isDirectory_iff.2 hstat] at hdir
        cases hdir
      | file content =>
        obtain ⟨l, hl, hget⟩ := stat_eq_ok_iff.1 hstat
        obtain rfl := locate_eq_ok hl
        have hremove : t.removeFile p = .ok (t.prune p.location) := by
          simp only [removeFile, hstat, bind, Except.bind]
          rfl
        have hne : p.location ≠ [] := by
          intro hroot
          rw [hroot] at hget
          cases hget
        exact .inl ⟨_, ifPresent_eq_ok (.inl (run_change_ok hremove)), not_holds_prune hne, hloose⟩

/-- **Removing leaves something exactly where dots name a directory.** -/
theorem holds_removeAll_iff (t : FileTree) (p : Path) :
    ((removeAll p).run t).2.Holds p ↔ t.Irremovable p := by
  rcases removeAll_outcome t p with ⟨s, hs, hempty, hloose⟩ | ⟨s, e, hs, hiff⟩
  · rw [hs]
    exact iff_of_false hempty hloose
  · rw [hs]
    exact hiff

end ResourceCompiler
