import ResourceCompiler.Proofs.FileTree.Removal
import ResourceCompiler.Proofs.FileTree.Ways

/-!
# Writing at a path

Requests that write make directories on the way of a path that are missing, and put one file at its
end. Nothing else changes.

* `FileTree.KeepsAt`: what stays at a location, or is made there.
* `FileTree.Paved`: a tree with missing directories made on the way of a path.
* `FileTree.Put`: a tree with a content put at a path.
* `FileTree.Gains`: a tree with a node put at a location, which is all that a single request does.
* `paved_createDirectories`, `stat_of_createDirectories`: directories with all that hold them.
* `put_of_write`, `put_of_copyFile`, `FileTree.rename_eq_ok`: files written, copied and moved.
-/

namespace ResourceCompiler

open FileAction

namespace FileTree

variable {s t u : FileTree} {p q : Path} {l : Location} {content : ByteArray}

/-! ### Missing directories -/

/-- Whether what is at a location is kept, but for a directory that is made where nothing is. -/
def KeepsAt (t s : FileTree) (l : Location) (made : Prop) : Prop :=
  s.get? l = t.get? l ∨ t.get? l = none ∧ s.get? l = some .directory ∧ made

namespace KeepsAt

variable {made : Prop}

theorem refl (t : FileTree) (l : Location) (made : Prop) : t.KeepsAt t l made := .inl rfl

theorem mono {made' : Prop} (h : t.KeepsAt s l made) (himp : made → made') :
    t.KeepsAt s l made' :=
  h.imp id fun ⟨hnone, hdir, hmade⟩ => ⟨hnone, hdir, himp hmade⟩

theorem get?_of_some (h : t.KeepsAt s l made) {n : Node} (hl : t.get? l = some n) :
    s.get? l = some n := by
  rcases h with hsame | ⟨hnone, -, -⟩
  · rw [hsame, hl]
  · rw [hl] at hnone
    cases hnone

theorem trans (h : t.KeepsAt u l made) (h' : u.KeepsAt s l made) : t.KeepsAt s l made := by
  rcases h with hsame | ⟨hnone, hdir, hmade⟩
  · rw [KeepsAt, ← hsame]
    exact h'
  · exact .inr ⟨hnone, h'.get?_of_some hdir, hmade⟩

/-- Files are neither made nor lost. -/
theorem get?_eq_file_iff (h : t.KeepsAt s l made) :
    s.get? l = some (.file content) ↔ t.get? l = some (.file content) := by
  rcases h with hsame | ⟨hnone, hdir, -⟩
  · rw [hsame]
  · rw [hnone, hdir]
    exact iff_of_false (fun h => by cases h) fun h => by cases h

end KeepsAt

/-- The tree with some missing directories made on the way of a path. -/
def Paved (t : FileTree) (p : Path) (s : FileTree) : Prop := ∀ l, t.KeepsAt s l (p.Through l)

theorem Paved.refl (t : FileTree) (p : Path) : t.Paved p t := fun l => .refl t l _

theorem Paved.keeps (h : t.Paved p s) : t.KeepsDirectories s := fun l hl => (h l).get?_of_some hl

theorem Paved.stat_of_stat {n : Node} (h : t.Paved p s) (hq : t.stat q = .ok n) :
    s.stat q = .ok n :=
  stat_of_keeps h.keeps hq ((h q.location).get?_of_some (get?_of_stat hq))

theorem Paved.read_of_read (h : t.Paved p s) (hq : t.read q = .ok content) :
    s.read q = .ok content :=
  read_eq_ok_iff.2 (h.stat_of_stat (read_eq_ok_iff.1 hq))

theorem Paved.trans (h : t.Paved p u) (h' : u.Paved p s) : t.Paved p s :=
  fun l => (h l).trans (h' l)

/-- What is made for the parent of a path is made for the path. -/
theorem Paved.of_parent? (hq : p.parent? = some q) (h : t.Paved q s) : t.Paved p s :=
  fun l => (h l).mono fun hway => hway.of_parent? hq

/-! ### A content at a path -/

/-- The tree with a content put at a path, and missing directories made on its way. -/
structure Put (t : FileTree) (p : Path) (content : ByteArray) (s : FileTree) : Prop where
  locate_eq : s.locate p = .ok p.location
  get?_location : s.get? p.location = some (.file content)
  /-- No directory is written over. -/
  vacant : t.get? p.location ≠ some .directory
  keepsAt : ∀ l, l ≠ p.location → t.KeepsAt s l (p.Through l)

theorem Put.read_eq (h : t.Put p content s) : s.read p = .ok content :=
  read_eq_ok_iff.2 (stat_eq_ok_iff.2 ⟨_, h.locate_eq, h.get?_location⟩)

theorem Put.keeps (h : t.Put p content s) : t.KeepsDirectories s := by
  intro l hl
  by_cases hp : l = p.location
  · subst hp
    exact absurd hl h.vacant
  · exact (h.keepsAt l hp).get?_of_some hl

/-- Other files read as before. -/
theorem Put.read_of_ne {c : ByteArray} (h : t.Put p content s) (hp : q.location ≠ p.location)
    (hq : t.read q = .ok c) : s.read q = .ok c := by
  have hstat := read_eq_ok_iff.1 hq
  have hkept := (h.keepsAt _ hp).get?_of_some (get?_of_stat hstat)
  exact read_eq_ok_iff.2 (stat_of_keeps h.keeps hstat hkept)

theorem Put.of_paved (h : t.Paved p u) (h' : u.Put p content s) : t.Put p content s where
  locate_eq := h'.locate_eq
  get?_location := h'.get?_location
  vacant := fun hdir => h'.vacant ((h p.location).get?_of_some hdir)
  keepsAt := fun l hl => (h l).trans (h'.keepsAt l hl)

/-- Of two contents put at a path, the second one stays. -/
theorem Put.trans {c : ByteArray} (h : t.Put p c u) (h' : u.Put p content s) :
    t.Put p content s where
  locate_eq := h'.locate_eq
  get?_location := h'.get?_location
  vacant := h.vacant
  keepsAt := fun l hl => (h.keepsAt l hl).trans (h'.keepsAt l hl)

/-! ### Single requests -/

/-- The tree with a node put at a location, and the same otherwise. -/
def Gains (t : FileTree) (l : Location) (n : Node) (s : FileTree) : Prop :=
  ∀ k, s.get? k = if l = k then some n else t.get? k

theorem Gains.get?_self {n : Node} (h : t.Gains l n s) : s.get? l = some n := by
  rw [h l, if_pos rfl]

theorem Gains.get?_of_ne {n : Node} (h : t.Gains l n s) {k : Location} (hk : k ≠ l) :
    s.get? k = t.get? k := by
  rw [h k, if_neg (Ne.symm hk)]

theorem Gains.keeps {n : Node} (h : t.Gains l n s) (vacant : t.get? l ≠ some .directory) :
    t.KeepsDirectories s := by
  intro k hk
  rw [h.get?_of_ne, hk]
  intro heq
  exact vacant (heq ▸ hk)

/-- A step from a directory to something else leads down. -/
theorem exists_down_of_vacant {a : Path.Step} {m : Location} (hm : t.get? m = some .directory)
    (vacant : t.get? (a.from m) ≠ some .directory) : ∃ name, a = .down name := by
  cases a with
  | stay => exact absurd hm vacant
  | up => exact absurd (get?_dropLast (by rw [hm]; exact Option.some_ne_none _)) vacant
  | down name => exact ⟨name, rfl⟩

theorem locateName_eq_ok (h : t.locateName p = .ok l) : l = p.location := by
  have hcheck : p.check = .ok () := by
    cases hcheck : p.check with
    | error e => rw [locateName, hcheck] at h; cases h
    | ok => rfl
  have hstay (n : Nat) (k : Location) :
      (List.replicate n Path.Step.stay).foldl Path.Step.from k = k := by
    induction n with
    | zero => rfl
    | succ n ih => exact ih
  rw [locateName_eq_walk hcheck] at h
  obtain ⟨n, hn⟩ := p.steps_eq
  rw [walk_eq_ok h, Path.location, hn]
  simp only [List.foldl_append, List.foldl_cons, List.foldl_nil, hstay]

/-- A name that leads somewhere does so from a directory. -/
theorem locateHolder_of_locateName (h : t.locateName p = .ok l) :
    ∃ m, t.locateHolder p = .ok m ∧ p.lastStep.isTooLong = false ∧ l = p.lastStep.from m := by
  have hcheck : p.check = .ok () := by
    cases hcheck : p.check with
    | error e => rw [locateName, hcheck] at h; cases h
    | ok => rfl
  rw [locateName_eq_walk hcheck] at h
  obtain ⟨m, hm, hlast⟩ := walk_append_eq_ok h
  obtain ⟨hdir, hlong, hend⟩ := walk_cons_eq_ok hlast
  refine ⟨m, ?_, hlong, (Except.ok.inj hend).symm⟩
  rw [locateHolder_eq_walk hcheck, walk_append, hm]
  exact walk_singleton hdir rfl

/-- A directory is made where nothing is. -/
theorem exists_createDirectory (hl : t.locateName p = .ok l) (vacant : t.get? l = none) :
    ∃ s, t.createDirectory p = .ok s ∧ t.Gains l .directory s := by
  obtain ⟨m, hm, -, hlocation⟩ := locateHolder_of_locateName hl
  have hdir := (locateHolder_eq_ok hm).2.2
  have hother : t.get? (p.lastStep.from m) ≠ some .directory := by
    rw [← hlocation, vacant]
    exact fun h => by cases h
  obtain ⟨name, hstep⟩ := exists_down_of_vacant hdir hother
  have holder : t.get? l.dropLast = some .directory := by
    rw [hlocation, hstep, Path.Step.from, List.dropLast_concat]
    exact hdir
  refine ⟨t.insert _ .directory holder (by simp [vacant]), ?_, fun k => get?_insert t _ k _ _ _⟩
  simp only [createDirectory, hl, bind, Except.bind, dif_pos vacant, dif_pos holder]
  rfl

/-- A directory is made at the end of its path by a step that leads down. -/
theorem createDirectory_eq_ok (h : t.createDirectory p = .ok s) :
    t.Gains p.location .directory s ∧ t.get? p.location = none ∧
      (∃ name, p.lastStep = .down name) ∧ s.stat p = .ok .directory := by
  obtain ⟨l, hl⟩ : ∃ l, t.locateName p = .ok l := by
    cases hl : t.locateName p with
    | error e =>
      simp only [createDirectory, hl, bind, Except.bind] at h
      cases h
    | ok l => exact ⟨l, rfl⟩
  have vacant : t.get? l = none := by
    by_contra hsome
    simp only [createDirectory, hl, bind, Except.bind, dif_neg hsome] at h
    cases h
  obtain ⟨s', hs', hgains⟩ := exists_createDirectory hl vacant
  obtain rfl : s' = s := Except.ok.inj (hs'.symm.trans h)
  obtain ⟨m, hm, hlong, hlast⟩ := locateHolder_of_locateName hl
  have hname := exists_down_of_vacant (locateHolder_eq_ok hm).2.2 (a := p.lastStep)
    (by simp [← hlast, vacant])
  have hkeeps := hgains.keeps (by simp [vacant])
  have hlocate := locate_of_locateHolder (locateHolder_of_keeps hkeeps hm) hlong
    (hlast ▸ hgains.get?_self)
  obtain rfl := locateName_eq_ok hl
  rw [← hlast] at hlocate
  exact ⟨hgains, vacant, hname, stat_eq_ok_iff.2 ⟨_, hlocate, hgains.get?_self⟩⟩

theorem paved_of_createDirectory (h : t.createDirectory p = .ok s) : t.Paved p s := by
  intro l
  obtain ⟨hgains, vacant, -, -⟩ := createDirectory_eq_ok h
  by_cases hl : l = p.location
  · subst hl
    exact .inr ⟨vacant, hgains.get?_self, p.through_location⟩
  · exact .inl (hgains.get?_of_ne hl)

theorem locateFile_eq_ok (h : t.locateFile p = .ok l) :
    p.endsWithSlash = false ∧ t.locate p = .ok l := by
  rw [locateFile] at h
  split at h
  · cases hholder : t.locateHolder p with
    | error e =>
      rw [hholder] at h
      cases h
    | ok m =>
      rw [hholder] at h
      cases h
  · rename_i hslash
    exact ⟨Bool.eq_false_iff.2 hslash, h⟩

/-- A file is written where no directory is. -/
theorem exists_write (hl : t.locateFile p = .ok l) (vacant : t.get? l ≠ some .directory)
    (content : ByteArray) :
    ∃ s, t.write p content = .ok s ∧ t.Gains l (.file content) s := by
  obtain ⟨m, hm, -, hlocation⟩ := locateHolder_of_locate (locateFile_eq_ok hl).2
  have hdir := (locateHolder_eq_ok hm).2.2
  obtain ⟨name, hstep⟩ := exists_down_of_vacant hdir (hlocation ▸ vacant)
  have holder : t.get? l.dropLast = some .directory := by
    rw [hlocation, hstep, Path.Step.from, List.dropLast_concat]
    exact hdir
  refine ⟨t.insert _ (.file content) holder vacant, ?_, fun k => get?_insert t _ k _ _ _⟩
  simp only [write, hl, bind, Except.bind, dif_pos vacant, dif_pos holder]
  rfl

/-- A file is written at the end of its path, where no directory is. -/
theorem gains_of_write (h : t.write p content = .ok s) :
    t.Gains p.location (.file content) s ∧ t.locateFile p = .ok p.location ∧
      t.get? p.location ≠ some .directory := by
  obtain ⟨l, hl⟩ : ∃ l, t.locateFile p = .ok l := by
    cases hl : t.locateFile p with
    | error e =>
      simp only [write, hl, bind, Except.bind] at h
      cases h
    | ok l => exact ⟨l, rfl⟩
  have vacant : t.get? l ≠ some .directory := by
    intro hdir
    simp only [write, hl, bind, Except.bind, dif_neg (not_not.2 hdir)] at h
    cases h
  obtain ⟨s', hs', hgains⟩ := exists_write hl vacant content
  obtain rfl : s' = s := Except.ok.inj (hs'.symm.trans h)
  obtain rfl := locate_eq_ok (locateFile_eq_ok hl).2
  exact ⟨hgains, hl, vacant⟩

/-- A file is written where its path leads, which ends with the name of the file. -/
theorem write_eq_ok (h : t.write p content = .ok s) :
    t.Put p content s ∧ p.endsWithSlash = false ∧ ∃ name, p.lastStep = .down name := by
  obtain ⟨hgains, hl, vacant⟩ := gains_of_write h
  obtain ⟨hslash, hlocate⟩ := locateFile_eq_ok hl
  obtain ⟨m, hm, -, hlast⟩ := locateHolder_of_locate hlocate
  refine ⟨⟨locate_of_keeps (hgains.keeps vacant) hlocate, hgains.get?_self, vacant,
    fun l hne => .inl (hgains.get?_of_ne hne)⟩, hslash, ?_⟩
  exact exists_down_of_vacant (locateHolder_eq_ok hm).2.2 (hlast ▸ vacant)

/-- What moving a file leaves: the content written at the place that the path names, and nothing at
the place that the file came from. -/
theorem rename_eq_ok (h : t.rename p q = .ok s) :
    ∃ c, t.read p = .ok c ∧ q.endsWithSlash = false ∧ (∃ name, q.lastStep = .down name) ∧
      (s = t ∧ q.location = p.location ∧ t.locate q = .ok q.location ∨
        (t.prune p.location).write q c = .ok s) := by
  obtain ⟨c, hc⟩ : ∃ c, t.read p = .ok c := by
    cases hc : t.read p with
    | error e =>
      simp only [rename, hc, bind, Except.bind] at h
      cases h
    | ok c => exact ⟨c, rfl⟩
  obtain ⟨m, hm⟩ : ∃ m, t.locateHolder q = .ok m := by
    cases hm : t.locateHolder q with
    | error e =>
      simp only [rename, hc, hm, bind, Except.bind] at h
      cases h
    | ok m => exact ⟨m, rfl⟩
  simp only [rename, hc, hm, bind, Except.bind] at h
  refine ⟨c, hc, ?_⟩
  split at h
  case h_2 => cases h
  rename_i name hstep
  obtain ⟨l, hl⟩ : ∃ l, t.locateName q = .ok l := by
    cases hl : t.locateName q with
    | error e =>
      simp only [hl] at h
      cases h
    | ok l => exact ⟨l, rfl⟩
  simp only [hl] at h
  split at h
  · cases h
  · rename_i hslash
    obtain rfl := locateName_eq_ok hl
    refine ⟨Bool.eq_false_iff.2 hslash, ⟨name, hstep⟩, ?_⟩
    split at h
    · rename_i hsame
      have hslash : q.endsWithSlash = false := Bool.eq_false_iff.2 hslash
      have hlocate : t.locate q = t.locateName q := by
        rw [locate, locateName, Path.withoutFinalSlashes_eq hslash]
      exact .inl ⟨(Except.ok.inj h).symm, hsame, hlocate.trans hl⟩
    · exact .inr h

end FileTree

open FileTree

variable {s t u : FileTree} {p q : Path} {l : Location} {content : ByteArray}

/-- A directory is made, or nothing changes, which succeeds where it is there already. -/
theorem run_createDirectory_or (t : FileTree) (p : Path) {r : Except FileError Unit}
    (h : (do
      match ← attempt (change fun t => t.createDirectory p) with
      | .ok () => pure ()
      | .error e => if ← ask fun t => t.isDirectory p then pure () else fail e :
        FileAction FileError Unit).run t = (r, s)) :
    t.createDirectory p = .ok s ∨ s = t ∧ (r = .ok () → t.stat p = .ok .directory) := by
  cases hnew : t.createDirectory p with
  | ok u =>
    simp only [FileAction.run, bind, FileAction.bind, attempt, change, hnew] at h
    obtain ⟨-, rfl⟩ := Prod.mk.inj h
    exact .inl rfl
  | error e =>
    simp only [FileAction.run, bind, FileAction.bind, attempt, change, hnew, ask] at h
    refine .inr ?_
    cases hthere : t.isDirectory p with
    | true =>
      rw [hthere] at h
      exact ⟨(Prod.mk.inj h).2.symm, fun _ => isDirectory_iff.1 hthere⟩
    | false =>
      rw [hthere] at h
      obtain ⟨rfl, rfl⟩ := Prod.mk.inj h
      exact ⟨rfl, fun hok => by cases hok⟩

/-- The last of several directories is made, or nothing changes any more, when those that hold it
have been made as far as they are missing. -/
theorem run_createDirectoriesWith_succ {fuel : Nat} {r : Except FileError Unit}
    (hp : p.text ≠ "") (h : (createDirectoriesWith (fuel + 1) p).run t = (r, s)) :
    ∃ u, (u = t ∨ ∃ parent r', p.parent? = some parent ∧
        (createDirectoriesWith fuel parent).run t = (r', u)) ∧
      (u.createDirectory p = .ok s ∨ s = u ∧ (r = .ok () → u.stat p = .ok .directory)) := by
  rw [createDirectoriesWith, if_neg hp] at h
  cases hnew : t.createDirectory p with
  | ok u =>
    simp only [FileAction.run, bind, FileAction.bind, attempt, change, hnew] at h
    obtain ⟨-, rfl⟩ := Prod.mk.inj h
    exact ⟨t, .inl rfl, .inl hnew⟩
  | error e =>
    by_cases hmissing : e = .notFound
    · subst hmissing
      simp only [FileAction.run, bind, FileAction.bind, attempt, change, hnew] at h
      cases hparent : p.parent? with
      | none =>
        rw [hparent] at h
        obtain ⟨rfl, rfl⟩ := Prod.mk.inj h
        exact ⟨t, .inl rfl, .inr ⟨rfl, fun hok => by cases hok⟩⟩
      | some parent =>
        rw [hparent] at h
        cases hholders : (createDirectoriesWith fuel parent).run t with
        | mk r' u =>
          refine ⟨u, .inr ⟨parent, r', rfl, hholders⟩, ?_⟩
          simp only [FileAction.run] at hholders
          cases r' with
          | error e' =>
            simp only [FileAction.bind, hholders] at h
            obtain ⟨rfl, rfl⟩ := Prod.mk.inj h
            exact .inr ⟨rfl, fun hok => by cases hok⟩
          | ok =>
            simp only [FileAction.bind, hholders] at h
            exact run_createDirectory_or u p h
    · refine ⟨t, .inl rfl, run_createDirectory_or t p ?_⟩
      simp only [FileAction.run, bind, FileAction.bind, attempt, change, hnew] at h ⊢
      cases e with
      | notFound => exact absurd rfl hmissing
      | _ => exact h

theorem run_createDirectoriesWith (fuel : Nat) {r : Except FileError Unit}
    (h : (createDirectoriesWith fuel p).run t = (r, s)) :
    t.Paved p s ∧ (r = .ok () → p.text ≠ "" → s.stat p = .ok .directory) := by
  induction fuel generalizing p r t s with
  | zero =>
    obtain ⟨rfl, rfl⟩ := Prod.mk.inj h
    exact ⟨.refl t p, fun hok => by cases hok⟩
  | succ fuel ih =>
    by_cases hp : p.text = ""
    · rw [createDirectoriesWith, if_pos hp] at h
      obtain ⟨-, rfl⟩ := Prod.mk.inj h
      exact ⟨.refl t p, fun _ hne => absurd hp hne⟩
    · obtain ⟨u, hu, hlast⟩ := run_createDirectoriesWith_succ hp h
      have hpaved : t.Paved p u := by
        rcases hu with rfl | ⟨parent, r', hparent, hholders⟩
        · exact .refl u p
        · exact (ih hholders).1.of_parent? hparent
      rcases hlast with hnew | ⟨rfl, hthere⟩
      · exact ⟨hpaved.trans (paved_of_createDirectory hnew),
          fun _ _ => (createDirectory_eq_ok hnew).2.2.2⟩
      · exact ⟨hpaved, fun hok _ => hthere hok⟩

/-- Making directories changes nothing but the way of the path, also where it fails. -/
theorem paved_createDirectories {r : Except FileError Unit}
    (h : (createDirectories p).run t = (r, s)) : t.Paved p s :=
  (run_createDirectoriesWith _ h).1

theorem stat_of_createDirectories (h : (createDirectories p).run t = (.ok (), s))
    (hp : p.location ≠ []) : s.stat p = .ok .directory :=
  (run_createDirectoriesWith _ h).2 rfl (Path.text_ne_of_location hp)

/-! ### Files -/

theorem put_of_write (h : (change fun t => t.write p content).run t = (.ok (), s)) :
    t.Put p content s :=
  (write_eq_ok (run_change_eq_ok h)).1

/-- A copy has the content that the source has when it is read, which is the one from before unless
the copy takes the place of its source. -/
theorem put_of_copyFile (h : (copyFile q p).run t = (.ok (), s)) :
    ∃ c, t.Put p c s ∧ ∀ d, t.read q = .ok d → q.location ≠ p.location → c = d := by
  obtain ⟨before, _, hbefore, h⟩ := run_bind_eq_ok h
  obtain ⟨-, rfl⟩ := run_examine_eq hbefore
  obtain ⟨⟨⟩, u, hu, h⟩ := run_bind_eq_ok h
  obtain ⟨c, _, hexamine, h⟩ := run_bind_eq_ok h
  obtain ⟨hc, rfl⟩ := run_examine_eq hexamine
  have hemptied := put_of_write hu
  refine ⟨c, hemptied.trans (put_of_write h), fun d hd hne => ?_⟩
  have hkept := hemptied.read_of_ne hne hd
  exact Except.ok.inj (hc.symm.trans hkept)

theorem paved_createHolders {r : Except FileError Unit}
    (h : (createHolders p).run t = (r, s)) : t.Paved p s := by
  rw [createHolders] at h
  split at h
  · rename_i parent hparent
    exact (paved_createDirectories h).of_parent? hparent
  · obtain ⟨-, rfl⟩ := Prod.mk.inj h
    exact .refl t p

end ResourceCompiler
