import ResourceCompiler.Proofs.FileTree.Clearing
import ResourceCompiler.Proofs.FileTree.Locality

/-!
# Trees that differ in files

Two trees may have the same directories and differ in files of some part only. Clearing output keeps
it so where it succeeds on both: a path that leads to a directory in one tree does so in the other,
and no file can be in the way of a directory that has been made.

* `FileTree.VaryOn`: trees that differ in nothing but files of a part.
* `FileTree.removeDirectory_congr`: a directory removed from trees that agree on the way to it.
* `FileTree.VaryOn.removeAll`, `FileTree.VaryOn.createDirectories`: requests that succeed on both.
* `FileTree.VaryOn.clear`: output cleared in both.
* `FileTree.KeepsFiles`, `keepsFiles_of_clear`: clearing makes no files.
-/

namespace ResourceCompiler

open FileAction

namespace FileTree

variable {A : Location → Prop} {s s' t t' u : FileTree} {l : Location} {p : Path}

/-! ### A directory removed -/

theorem removeDirectory_congr (h : AgreeOn A s t) (hp : p.Within A)
    (hbelow : (s.below p.location).isEmpty = (t.below p.location).isEmpty) :
    Alike A (s.removeDirectory p) (t.removeDirectory p) := by
  rw [removeDirectory, removeDirectory, locateHolder_congr h hp, locateName_congr h hp]
  cases t.locateHolder p with
  | error e => exact .error e
  | ok m =>
    simp only [bind, Except.bind]
    cases p.lastStep with
    | stay => exact .error .invalidArgument
    | up => exact .error .notEmpty
    | down name =>
      cases hname : t.locateName p with
      | error e => exact .error e
      | ok l =>
        obtain rfl := locateName_eq_ok hname
        dsimp only
        rw [h _ (hp _ p.through_location), hbelow]
        cases t.get? p.location with
        | none => exact .error .notFound
        | some n =>
          cases n with
          | file content => exact .error .notADirectory
          | directory =>
            dsimp only
            split
            · exact .ok (h.prune p.location)
            · exact .error .notEmpty

/-! ### Trees that differ in files -/

/-- Whether two trees differ in nothing but files at locations of a part. -/
def VaryOn (A : Location → Prop) (s t : FileTree) : Prop :=
  ∀ l, s.get? l = t.get? l ∨ A l ∧ s.get? l ≠ some .directory ∧ t.get? l ≠ some .directory

namespace VaryOn

theorem symm (h : VaryOn A s t) : VaryOn A t s := by
  intro l
  rcases h l with hsame | ⟨hpart, hs, ht⟩
  · exact .inl hsame.symm
  · exact .inr ⟨hpart, ht, hs⟩

/-- The directories are the same. -/
theorem keeps (h : VaryOn A s t) : s.KeepsDirectories t := by
  intro l hl
  rcases h l with hsame | ⟨-, hother, -⟩
  · rw [← hsame, hl]
  · exact absurd hl hother

theorem get?_eq_of_not_mem (h : VaryOn A s t) (hl : ¬ A l) : s.get? l = t.get? l :=
  (h l).resolve_right fun hvaried => hl hvaried.1

/-- Where neither tree has a file, they have the same. -/
theorem get?_eq_of_not_file (h : VaryOn A s t) (hs : ∀ content, s.get? l ≠ some (.file content))
    (ht : ∀ content, t.get? l ≠ some (.file content)) : s.get? l = t.get? l := by
  have hnone {v : FileTree} (hfile : ∀ content, v.get? l ≠ some (.file content))
      (hdir : v.get? l ≠ some .directory) : v.get? l = none := by
    cases hv : v.get? l with
    | none => rfl
    | some n =>
      cases n with
      | directory => exact absurd hv hdir
      | file content => exact absurd hv (hfile content)
  rcases h l with hsame | ⟨-, hsdir, htdir⟩
  · exact hsame
  · rw [hnone hs hsdir, hnone ht htdir]

/-- What a path leads to in one tree it leads to in the other, if its location does not differ. -/
theorem stat_of_stat (h : VaryOn A s t) {n : Node} (hs : s.stat p = .ok n)
    (hl : s.get? p.location = t.get? p.location) : t.stat p = .ok n :=
  stat_of_keeps h.keeps hs (hl ▸ get?_of_stat hs)

theorem isDirectory_eq (h : VaryOn A s t) (p : Path) : s.isDirectory p = t.isDirectory p := by
  rw [Bool.eq_iff_iff, isDirectory_iff, isDirectory_iff]
  exact ⟨stat_directory_of_keeps h.keeps, stat_directory_of_keeps h.symm.keeps⟩

theorem prune (h : VaryOn A s t) (k : Location) : VaryOn A (s.prune k) (t.prune k) := by
  intro l
  by_cases hroot : l = []
  · subst hroot
    exact .inl rfl
  · rw [get?_prune s _ _ hroot, get?_prune t _ _ hroot]
    split
    · exact .inl rfl
    · exact h l

theorem emptied (h : VaryOn A s t) (k : Location) : VaryOn A (s.emptied k) (t.emptied k) := by
  intro l
  rw [get?_emptied, get?_emptied]
  split
  · exact .inl rfl
  · exact h l

end VaryOn

/-! ### Removing -/

/-- A directory is emptied, and then removed by itself. -/
theorem snd_run_removeAll (h : t.stat p = .ok .directory) : ((removeAll p).run t).2 =
    ((change fun t => t.removeDirectory p).run (t.emptied p.location)).2 := by
  rw [run_removeAll_of_isDirectory (isDirectory_iff.2 h), snd_run_ifPresent, run_removeTree h,
    snd_run_ifPresent]

/-- Unless a path leads to a directory, there is nothing or a file to remove. -/
theorem removeAll_of_not_isDirectory (hdir : t.isDirectory p = false)
    (h : (removeAll p).run t = (.ok (), s)) :
    t.stat p = .error .notFound ∧ s = t ∨
      ∃ content, t.stat p = .ok (.file content) ∧ s = t.prune p.location := by
  rcases removeAll_eq_ok h with hnothing | ⟨⟨n, hn⟩, -⟩
  · exact .inl hnothing
  · cases n with
    | directory =>
      rw [isDirectory_iff.2 hn] at hdir
      cases hdir
    | file content =>
      have hremove : t.removeFile p = .ok (t.prune p.location) := by
        simp only [removeFile, hn, bind, Except.bind]
        rfl
      have hrun := ifPresent_eq_ok (.inl (run_change_ok (f := fun t => t.removeFile p) hremove))
      rw [← run_removeAll_of_not_isDirectory hdir, h] at hrun
      exact .inr ⟨content, hn, (Prod.mk.inj hrun).2⟩

namespace VaryOn

/-- A file that only one tree has where a path leads is missing from the other. -/
theorem get?_eq_none (h : VaryOn A s t) (hs : s.stat p = .error .notFound) {content : ByteArray}
    (ht : t.stat p = .ok (.file content)) : s.get? p.location = none := by
  obtain ⟨l, hl, -⟩ := stat_eq_ok_iff.1 ht
  have hlocate := locate_of_keeps h.symm.keeps hl
  obtain rfl := locate_eq_ok hl
  cases hget : s.get? p.location with
  | none => rfl
  | some n =>
    rw [stat_eq_ok_iff.2 ⟨_, hlocate, hget⟩] at hs
    cases hs

/-- Removing what is missing from one tree makes no difference. -/
theorem prune_right (h : VaryOn A s t) (hl : s.get? l = none) : VaryOn A s (t.prune l) := by
  intro k
  by_cases hroot : k = []
  · subst hroot
    exact .inl rfl
  · rw [get?_prune t _ _ hroot]
    split
    · rename_i hpre
      exact .inl (get?_eq_none_of_within hl (List.isPrefixOf_iff_prefix.1 hpre))
    · exact h k

/-- The ways to a directory agree where it has been emptied. -/
theorem agreeOn_emptied (h : VaryOn A s t) (hs : s.stat p = .ok .directory) :
    AgreeOn p.Through (s.emptied p.location) (t.emptied p.location) := by
  intro l hl
  have hdir {v : FileTree} (hv : v.stat p = .ok .directory) : v.get? l = some .directory :=
    (get?_of_through hv hl).elim id And.right
  rw [get?_emptied, get?_emptied, hdir hs, hdir (stat_directory_of_keeps h.keeps hs)]

/-- A directory removed from both trees, or from neither. -/
theorem removeDirectory {B : Location → Prop} (h : VaryOn A s t)
    (hboth : Alike B (s.removeDirectory p) (t.removeDirectory p)) :
    VaryOn A ((change fun t => t.removeDirectory p).run s).2
      ((change fun t => t.removeDirectory p).run t).2 := by
  cases hs : s.removeDirectory p with
  | error e =>
    cases ht : t.removeDirectory p with
    | error e' => rwa [run_change_error hs, run_change_error ht]
    | ok v =>
      rw [hs, ht] at hboth
      cases hboth
  | ok u =>
    obtain ⟨v, ht, -⟩ := hboth.exists_eq_ok hs
    rw [run_change_ok hs, run_change_ok ht, (removeDirectory_eq_ok hs).1,
      (removeDirectory_eq_ok ht).1]
    exact h.prune p.location

theorem removeAll (h : VaryOn A s t) (hs : (removeAll p).run s = (.ok (), s'))
    (ht : (removeAll p).run t = (.ok (), t')) : VaryOn A s' t' := by
  cases hdir : s.isDirectory p with
  | true =>
    have hstat := isDirectory_iff.1 hdir
    have hremoved := removeDirectory_congr (h.agreeOn_emptied hstat) (fun _ hl => hl)
      (by rw [below_emptied, below_emptied])
    have hs' := snd_run_removeAll hstat
    have ht' := snd_run_removeAll (stat_directory_of_keeps h.keeps hstat)
    rw [hs] at hs'
    rw [ht] at ht'
    obtain rfl : s' = _ := hs'
    obtain rfl : t' = _ := ht'
    exact (h.emptied p.location).removeDirectory hremoved
  | false =>
    rcases removeAll_of_not_isDirectory hdir hs with ⟨hsnone, rfl⟩ | ⟨c, hsfile, rfl⟩
    · rcases removeAll_of_not_isDirectory (h.isDirectory_eq p ▸ hdir) ht with
        ⟨-, rfl⟩ | ⟨d, htfile, rfl⟩
      · exact h
      · exact h.prune_right (h.get?_eq_none hsnone htfile)
    · rcases removeAll_of_not_isDirectory (h.isDirectory_eq p ▸ hdir) ht with
        ⟨htnone, rfl⟩ | ⟨d, -, rfl⟩
      · exact (h.symm.prune_right (h.symm.get?_eq_none htnone hsfile)).symm
      · exact h.prune p.location

/-! ### Making directories -/

/-- No file is on the way to a directory that can be made. -/
theorem get?_ne_file_of_createDirectories (hp : p.text ≠ "")
    (h : (createDirectories p).run t = (.ok (), s)) (hl : p.Through l) (content : ByteArray) :
    t.get? l ≠ some (.file content) := by
  obtain ⟨hpaved, hstat⟩ := run_createDirectoriesWith _ h
  have hdir : s.get? l = some .directory :=
    (get?_of_through (hstat rfl hp) hl).elim id And.right
  rcases hpaved l with hsame | ⟨hnone, -, -⟩
  · rw [← hsame, hdir]
    exact nofun
  · rw [hnone]
    exact nofun

theorem createDirectories (h : VaryOn A s t) (hs : (createDirectories p).run s = (.ok (), s'))
    (ht : (createDirectories p).run t = (.ok (), t')) : VaryOn A s' t' := by
  by_cases hp : p.text = ""
  · have hsame {v : FileTree} : (ResourceCompiler.createDirectories p).run v = (.ok (), v) := by
      rw [ResourceCompiler.createDirectories, createDirectoriesWith, if_pos hp]
      rfl
    obtain rfl := (Prod.mk.inj (hsame.symm.trans hs)).2
    obtain rfl := (Prod.mk.inj (hsame.symm.trans ht)).2
    exact h
  · -- the ways agree, so that the same is made on them
    have hway : AgreeOn p.Through s t := fun l hl =>
      h.get?_eq_of_not_file (get?_ne_file_of_createDirectories hp hs hl)
        (get?_ne_file_of_createDirectories hp ht hl)
    obtain ⟨v, hv, hmade⟩ :=
      (isLocal_createDirectoriesWith _ fun _ hl => hl).exists_run_eq hway hs
    obtain rfl : v = t' := (Prod.mk.inj (hv.symm.trans ht)).2
    intro l
    by_cases hl : p.Through l
    · exact .inl (hmade l hl)
    · have hkept {u v : FileTree} (hv : (ResourceCompiler.createDirectories p).run u =
          (.ok (), v)) : v.get? l = u.get? l :=
        (paved_createDirectories hv l).resolve_right fun hnew => hl hnew.2.2
      rw [hkept hs, hkept ht]
      exact h l

/-! ### Clearing -/

theorem renew (h : VaryOn A s t) (hs : (renew p).run s = (.ok (), s'))
    (ht : (renew p).run t = (.ok (), t')) : VaryOn A s' t' := by
  obtain ⟨⟨⟩, u, hu, hs⟩ := run_bind_eq_ok hs
  obtain ⟨⟨⟩, v, hv, ht⟩ := run_bind_eq_ok ht
  exact (h.removeAll hu hv).createDirectories hs ht

theorem each_renew {ds : List Path} {done done' : List Unit} (h : VaryOn A s t)
    (hs : (each ResourceCompiler.renew ds).run s = (.ok done, s'))
    (ht : (each ResourceCompiler.renew ds).run t = (.ok done', t')) : VaryOn A s' t' := by
  induction ds generalizing s t done done' with
  | nil =>
    obtain ⟨-, rfl⟩ := run_pure_eq_ok hs
    obtain ⟨-, rfl⟩ := run_pure_eq_ok ht
    exact h
  | cons d ds ih =>
    obtain ⟨⟨⟩, u, _, -, hu, hs⟩ := run_each_cons_eq_ok hs
    obtain ⟨⟨⟩, v, _, -, hv, ht⟩ := run_each_cons_eq_ok ht
    exact ih (h.renew hu hv) hs ht

/-- **Clearing keeps trees that differ in files only.** -/
theorem clear {o : OutputPaths} (h : VaryOn A s t) (hs : o.clear.run s = (.ok (), s'))
    (ht : o.clear.run t = (.ok (), t')) : VaryOn A s' t' := by
  obtain ⟨done, u, hu, hs⟩ := run_bind_eq_ok hs
  obtain ⟨done', v, hv, ht⟩ := run_bind_eq_ok ht
  exact (h.each_renew hu hv).removeAll hs ht

end VaryOn

/-! ### Files that stay -/

/-- Whether all files of a tree have been there before. -/
def KeepsFiles (t s : FileTree) : Prop :=
  ∀ l content, s.get? l = some (.file content) → t.get? l = some (.file content)

theorem KeepsFiles.trans (h : t.KeepsFiles u) (h' : u.KeepsFiles s) : t.KeepsFiles s :=
  fun l content hl => h l content (h' l content hl)

theorem keepsFiles_of_removeAll (h : (removeAll p).run t = (.ok (), s)) : t.KeepsFiles s := by
  intro l content hl
  rcases removeAll_eq_ok h with ⟨-, rfl⟩ | ⟨-, hcleared⟩
  · exact hl
  · rw [← hcleared.get?_apart l fun hpre => ?_, hl]
    rcases hcleared.get?_of_prefix l hpre with hnone | ⟨-, hdir⟩
    · rw [hnone] at hl
      cases hl
    · rw [hdir] at hl
      cases hl

theorem keepsFiles_of_createDirectories (h : (createDirectories p).run t = (.ok (), s)) :
    t.KeepsFiles s :=
  fun l _ hl => (paved_createDirectories h l).get?_eq_file_iff.1 hl

theorem keepsFiles_of_each {ds : List Path} {done : List Unit}
    (h : (each renew ds).run t = (.ok done, s)) : t.KeepsFiles s := by
  induction ds generalizing t done with
  | nil =>
    obtain ⟨-, rfl⟩ := run_pure_eq_ok h
    exact fun _ _ hl => hl
  | cons d ds ih =>
    obtain ⟨⟨⟩, u, _, -, hu, hrest⟩ := run_each_cons_eq_ok h
    obtain ⟨⟨⟩, v, hv, hmake⟩ := run_bind_eq_ok hu
    exact ((keepsFiles_of_removeAll hv).trans (keepsFiles_of_createDirectories hmake)).trans
      (ih hrest)

/-- **Clearing makes no files.** -/
theorem keepsFiles_of_clear {o : OutputPaths} (h : o.clear.run t = (.ok (), s)) :
    t.KeepsFiles s := by
  obtain ⟨done, u, hu, h⟩ := run_bind_eq_ok h
  exact (keepsFiles_of_each hu).trans (keepsFiles_of_removeAll h)

end FileTree

end ResourceCompiler
