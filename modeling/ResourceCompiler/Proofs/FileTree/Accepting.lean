import ResourceCompiler.Proofs.Metadata.Storing

/-!
# Places that take a file

Whether a file can be put at a path depends on the directories of a tree and on nothing else. Files
that come, go and change do not matter, so that requests which only work on files do not get into
each other's way.

* `FileTree.Accepts`: paths that take a file.
* `FileTree.exists_write_iff`, `FileTree.exists_rename_iff`: writing and moving succeed exactly
  there.
* `FileTree.SameDirectories`, `FileTree.SameDirectories.accepts_iff`: trees with the same
  directories take files at the same paths.
-/

namespace ResourceCompiler.FileTree

variable {s t u : FileTree} {p q : Path} {l : Location} {content : ByteArray}

/-- Whether a tree takes a file at a path: the path leads to a place of its own, which no directory
stands at. -/
structure Accepts (t : FileTree) (p : Path) : Prop where
  endsWithSlash : p.endsWithSlash = false
  locate_eq : t.locate p = .ok p.location
  vacant : t.get? p.location ≠ some .directory

namespace Accepts

theorem exists_lastStep (h : t.Accepts p) : ∃ name, p.lastStep = .down name := by
  obtain ⟨m, hm, -, hlast⟩ := locateHolder_of_locate h.locate_eq
  apply exists_down_of_vacant (locateHolder_eq_ok hm).2.2
  rw [← hlast]
  exact h.vacant

theorem locateFile_eq (h : t.Accepts p) : t.locateFile p = .ok p.location := by
  rw [locateFile, h.endsWithSlash]
  exact h.locate_eq

/-- The file at a place is read by the path that leads there. -/
theorem read_eq (h : t.Accepts p) (hfile : t.get? p.location = some (.file content)) :
    t.read p = .ok content :=
  read_eq_ok_iff.2 (stat_eq_ok_iff.2 ⟨_, h.locate_eq, hfile⟩)

end Accepts

/-! ### Writing and moving -/

/-- **A file is written exactly where the tree takes one.** -/
theorem exists_write_iff : (∃ s, t.write p content = .ok s) ↔ t.Accepts p := by
  constructor
  · intro h
    obtain ⟨s, hs⟩ := h
    obtain ⟨-, hfile, vacant⟩ := gains_of_write hs
    obtain ⟨hslash, hlocate⟩ := locateFile_eq_ok hfile
    exact ⟨hslash, hlocate, vacant⟩
  · intro h
    obtain ⟨s, hs, -⟩ := exists_write h.locateFile_eq h.vacant content
    exact ⟨s, hs⟩

/-- What writing leaves where a tree takes a file. -/
theorem Accepts.exists_gains (h : t.Accepts p) (content : ByteArray) :
    ∃ s, t.write p content = .ok s ∧ t.Gains p.location (.file content) s :=
  exists_write h.locateFile_eq h.vacant content

/-! ### Trees with the same directories -/

/-- Whether two trees have their directories at the same locations. -/
def SameDirectories (t s : FileTree) : Prop :=
  ∀ l, s.get? l = some .directory ↔ t.get? l = some .directory

namespace SameDirectories

theorem refl (t : FileTree) : t.SameDirectories t := fun _ => Iff.rfl

theorem symm (h : t.SameDirectories s) : s.SameDirectories t := fun l => (h l).symm

theorem trans (h : t.SameDirectories u) (h' : u.SameDirectories s) : t.SameDirectories s :=
  fun l => (h' l).trans (h l)

/-- A file in the place of a file, or where nothing is, changes no directory. -/
theorem of_gains (h : t.Gains l (.file content) s) (vacant : t.get? l ≠ some .directory) :
    t.SameDirectories s := by
  intro k
  by_cases hk : k = l
  · subst hk
    rw [h.get?_self]
    exact iff_of_false (fun heq => by cases heq) vacant
  · rw [h.get?_of_ne hk]

theorem of_write (h : t.write p content = .ok s) : t.SameDirectories s :=
  of_gains (gains_of_write h).1 (gains_of_write h).2.2

/-- A file that is taken away was no directory. -/
theorem of_prune (h : t.get? l = some (.file content)) : t.SameDirectories (t.prune l) := by
  intro k
  by_cases hk : k = l
  · subst hk
    have hroot : k ≠ [] := by
      rintro rfl
      cases h
    rw [get?_prune t k k hroot, if_pos (List.isPrefixOf_iff_prefix.2 List.prefix_rfl), h]
    exact iff_of_false (fun heq => by cases heq) fun heq => by cases heq
  · rw [Store.get?_prune_file h hk]

theorem keeps (h : t.SameDirectories s) : t.KeepsDirectories s := fun l hl => (h l).2 hl

/-- **Trees with the same directories take files at the same paths.** -/
theorem accepts_iff (h : t.SameDirectories s) : s.Accepts p ↔ t.Accepts p := by
  have hforth {a b : FileTree} (hab : a.SameDirectories b) (ha : a.Accepts p) : b.Accepts p := by
    refine ⟨ha.endsWithSlash, locate_of_keeps hab.keeps ha.locate_eq, ?_⟩
    intro hdir
    exact ha.vacant ((hab p.location).1 hdir)
  exact ⟨hforth h.symm, hforth h⟩

/-- Files that are the same read the same. -/
theorem read_eq_ok (h : t.SameDirectories s) (hsame : s.get? p.location = t.get? p.location)
    (hread : t.read p = .ok content) : s.read p = .ok content := by
  have hstat := read_eq_ok_iff.1 hread
  apply read_eq_ok_iff.2
  apply stat_of_keeps h.keeps hstat
  rw [hsame]
  exact get?_of_stat hstat

end SameDirectories

/-! ### Moving -/

/-- **A file is moved exactly to where the tree takes one.** -/
theorem exists_rename_iff (hread : t.read p = .ok content) :
    (∃ s, t.rename p q = .ok s) ↔ t.Accepts q := by
  have hfile : t.get? p.location = some (.file content) := get?_of_stat (read_eq_ok_iff.1 hread)
  constructor
  · intro h
    obtain ⟨s, hs⟩ := h
    obtain ⟨c, -, hslash, -, hmoved⟩ := rename_eq_ok hs
    rcases hmoved with ⟨-, hsame, hlocate⟩ | hmoved
    · refine ⟨hslash, hlocate, ?_⟩
      rw [hsame, hfile]
      exact fun heq => by cases heq
    · exact (SameDirectories.of_prune hfile).accepts_iff.1 (exists_write_iff.1 ⟨s, hmoved⟩)
  · intro h
    obtain ⟨m, hm, hlong, -⟩ := locateHolder_of_locate h.locate_eq
    obtain ⟨name, hname⟩ := h.exists_lastStep
    have hend := locateName_of_locateHolder hm hlong
    have hwrite : ∃ s, (t.prune p.location).write q content = .ok s :=
      exists_write_iff.2 ((SameDirectories.of_prune hfile).accepts_iff.2 h)
    simp only [rename, hread, hm, bind, Except.bind, hname]
    rw [hname] at hend
    simp only [hend, h.endsWithSlash, Bool.false_eq_true, if_false]
    by_cases hsame : Path.Step.from m (.down name) = p.location
    · exact ⟨t, if_pos hsame⟩
    · obtain ⟨s, hs⟩ := hwrite
      exact ⟨s, (if_neg hsame).trans hs⟩

/-- Nothing is moved from a place where nothing is. -/
theorem Accepts.stat_eq_error (h : t.Accepts p) (hnone : t.get? p.location = none) :
    t.stat p = .error .notFound := by
  simp only [stat, h.locate_eq, bind, Except.bind, hnone]
  rfl

theorem Accepts.rename_eq_error (h : t.Accepts p) (hnone : t.get? p.location = none) (q : Path) :
    t.rename p q = .error .notFound := by
  simp only [rename, read, h.stat_eq_error hnone, bind, Except.bind]

/-- What moving a file leaves. -/
theorem get?_rename (hread : t.read p = .ok content) (h : t.rename p q = .ok s) (l : Location) :
    s.get? l = if l = q.location then some (.file content)
      else if l = p.location then none else t.get? l := by
  have hfile : t.get? p.location = some (.file content) := get?_of_stat (read_eq_ok_iff.1 hread)
  obtain ⟨c, hc, -, -, hmoved⟩ := rename_eq_ok h
  obtain rfl := Except.ok.inj (hread.symm.trans hc)
  rcases hmoved with ⟨rfl, hsame, -⟩ | hmoved
  · by_cases hl : l = q.location
    · rw [if_pos hl, hl, hsame, hfile]
    · rw [if_neg hl, if_neg (hsame ▸ hl)]
  · have hgains := (gains_of_write hmoved).1
    by_cases hq : l = q.location
    · rw [if_pos hq, hq]
      exact hgains.get?_self
    · rw [if_neg hq, hgains.get?_of_ne hq]
      by_cases hp : l = p.location
      · have hroot : l ≠ [] := by
          rintro rfl
          rw [← hp] at hfile
          cases hfile
        rw [if_pos hp, get?_prune t _ _ hroot, ← hp,
          if_pos (List.isPrefixOf_iff_prefix.2 List.prefix_rfl)]
      · rw [if_neg hp]
        exact Store.get?_prune_file hfile hp

/-- Moving a file changes no directory. -/
theorem SameDirectories.of_rename (hread : t.read p = .ok content) (h : t.rename p q = .ok s) :
    t.SameDirectories s := by
  have hfile : t.get? p.location = some (.file content) := get?_of_stat (read_eq_ok_iff.1 hread)
  obtain ⟨c, -, -, -, hmoved⟩ := rename_eq_ok h
  rcases hmoved with ⟨rfl, -, -⟩ | hmoved
  · exact .refl s
  · exact (SameDirectories.of_prune hfile).trans (.of_write hmoved)

end ResourceCompiler.FileTree
