import ResourceCompiler.OutputPaths
import ResourceCompiler.Proofs.FileTree.Writing

/-!
# Directories made anew

Clearing removes what a path leads to and makes the directory again. Where the path leads to
nothing, there is nothing to remove by it. A path that goes up again from a missing directory leads
to nothing even though something is where it would lead: what is there is overlooked, and it stays.

* `FileTree.Cleared`, `removeAll_eq_ok`: what removing leaves.
* `FileTree.Renewed`, `renewed_of_run`: one directory made anew.
* `OutputPaths.overlooked`: the directories that clearing finds nothing at.
* `OutputPaths.Exclusive`: outputs that lie apart.
* `OutputPaths.Emptied`, `OutputPaths.emptied_of_clear`: what clearing leaves of files, and what it
  leaves where no path goes up.
-/

namespace ResourceCompiler

open FileAction

namespace FileTree

variable {s t u : FileTree} {p : Path} {l : Location} {content : ByteArray}

/-! ### What removing leaves -/

/-- The tree without what is below a location, and without what is at it unless that is a
directory. -/
structure Cleared (t : FileTree) (l : Location) (s : FileTree) : Prop where
  get?_of_prefix : ∀ k, l <+: k → s.get? k = none ∨ k = l ∧ s.get? k = some .directory
  get?_apart : ∀ k, ¬ l <+: k → s.get? k = t.get? k

theorem cleared_emptied (h : t.get? l = some .directory) : t.Cleared l (t.emptied l) where
  get?_of_prefix := by
    intro k hk
    rw [get?_emptied]
    by_cases hl : l = k
    · subst hl
      exact .inr ⟨rfl, by rw [if_neg fun hbelow => hbelow.2 rfl, h]⟩
    · exact .inl (if_pos ⟨hk, hl⟩)
  get?_apart := fun k hk => by rw [get?_emptied, if_neg fun hbelow => hk hbelow.1]

theorem cleared_prune (hl : l ≠ []) (h : ∀ k, ¬ l <+: k → u.get? k = t.get? k) :
    t.Cleared l (u.prune l) where
  get?_of_prefix := by
    intro k hk
    have hne : k ≠ [] := by
      rintro rfl
      exact hl (List.prefix_nil.1 hk)
    exact .inl (by rw [get?_prune u _ _ hne, if_pos (List.isPrefixOf_iff_prefix.2 hk)])
  get?_apart := by
    intro k hk
    by_cases hne : k = []
    · rw [hne]
      rfl
    · rw [get?_prune u _ _ hne, if_neg fun hpre => hk (List.isPrefixOf_iff_prefix.1 hpre), h k hk]

theorem removeDirectory_eq_ok (h : t.removeDirectory p = .ok s) :
    s = t.prune p.location ∧ t.get? p.location = some .directory ∧ p.location ≠ [] := by
  obtain ⟨m, hm⟩ : ∃ m, t.locateHolder p = .ok m := by
    cases hm : t.locateHolder p with
    | error e =>
      simp only [removeDirectory, hm, bind, Except.bind] at h
      cases h
    | ok m => exact ⟨m, rfl⟩
  simp only [removeDirectory, hm, bind, Except.bind] at h
  split at h
  case h_1 => cases h
  case h_2 => cases h
  rename_i name hstep
  obtain ⟨l, hl⟩ : ∃ l, t.locateName p = .ok l := by
    cases hl : t.locateName p with
    | error e =>
      simp only [hl] at h
      cases h
    | ok l => exact ⟨l, rfl⟩
  simp only [hl] at h
  obtain rfl := locateName_eq_ok hl
  split at h
  · cases h
  · cases h
  · rename_i hdir
    split at h
    · refine ⟨(Except.ok.inj h).symm, hdir, ?_⟩
      obtain ⟨as, has⟩ := Path.strides_of_lastStep hstep Path.Step.noConfusion
      rw [Path.location_eq_foldl_strides, has, List.foldl_append]
      exact List.append_ne_nil_of_right_ne_nil _ (List.cons_ne_nil name [])
    · cases h

theorem removeFile_eq_ok (h : t.removeFile p = .ok s) :
    s = t.prune p.location ∧ t.Holds p ∧ p.location ≠ [] := by
  cases hstat : t.stat p with
  | error e =>
    simp only [removeFile, hstat, bind, Except.bind] at h
    cases h
  | ok n =>
    cases n with
    | directory =>
      simp only [removeFile, hstat, bind, Except.bind] at h
      cases h
    | file content =>
      simp only [removeFile, hstat, bind, Except.bind] at h
      refine ⟨(Except.ok.inj h).symm, ⟨_, hstat⟩, fun hroot => ?_⟩
      obtain ⟨l, hl, hget⟩ := stat_eq_ok_iff.1 hstat
      obtain rfl := locate_eq_ok hl
      rw [hroot] at hget
      cases hget

end FileTree

open FileTree

variable {s t u : FileTree} {p : Path} {l : Location} {content : ByteArray}

theorem snd_run_ifPresent (x : FileAction FileError Unit) (t : FileTree) :
    ((ifPresent x).run t).2 = (x.run t).2 := by
  cases hx : x t with
  | mk r u =>
    simp only [ifPresent, FileAction.run, bind, FileAction.bind, attempt, hx]
    cases r with
    | ok => rfl
    | error e => cases e <;> rfl

theorem snd_run_change (f : FileTree → Except FileError FileTree) (t : FileTree) :
    f t = .ok ((change f).run t).2 ∨ (∃ e, f t = .error e) ∧ ((change f).run t).2 = t := by
  cases hf : f t with
  | ok u => exact .inl (by rw [run_change_ok hf])
  | error e => exact .inr ⟨⟨e, rfl⟩, by rw [run_change_error hf]⟩

/-- **What removing leaves.** Either there is nothing that the path leads to, or that is cleared. -/
theorem removeAll_eq_ok (h : (removeAll p).run t = (.ok (), s)) :
    t.stat p = .error .notFound ∧ s = t ∨ t.Holds p ∧ t.Cleared p.location s := by
  have hs : s = ((removeAll p).run t).2 := by rw [h]
  cases hdir : t.isDirectory p with
  | true =>
    have hstat := isDirectory_iff.1 hdir
    obtain ⟨l, hl, hget⟩ := stat_eq_ok_iff.1 hstat
    obtain rfl := locate_eq_ok hl
    refine .inr ⟨⟨_, hstat⟩, ?_⟩
    rw [run_removeAll_of_isDirectory hdir, snd_run_ifPresent, run_removeTree hstat,
      snd_run_ifPresent] at hs
    have hcleared := cleared_emptied hget
    rcases snd_run_change (fun t => t.removeDirectory p) (t.emptied p.location) with
      hok | ⟨-, hsame⟩
    · rw [← hs] at hok
      obtain ⟨rfl, -, hne⟩ := removeDirectory_eq_ok hok
      exact cleared_prune hne hcleared.get?_apart
    · rw [hs, hsame]
      exact hcleared
  | false =>
    rw [run_removeAll_of_not_isDirectory hdir, snd_run_ifPresent] at hs
    rcases snd_run_change (fun t => t.removeFile p) t with hok | ⟨⟨e, he⟩, hsame⟩
    · rw [← hs] at hok
      obtain ⟨rfl, hholds, hne⟩ := removeFile_eq_ok hok
      exact .inr ⟨hholds, cleared_prune hne fun _ _ => rfl⟩
    · refine .inl ⟨?_, hs.trans hsame⟩
      -- any other fault would be reported
      obtain rfl : e = .notFound := by
        by_contra hne
        have hremove : (change fun t => t.removeFile p).run t = (.error e, t) :=
          run_change_error he
        have herror := ifPresent_eq_error hremove hne
        rw [run_removeAll_of_not_isDirectory hdir, herror] at h
        cases (Prod.mk.inj h).1
      cases hstat : t.stat p with
      | error e =>
        have hremove : t.removeFile p = .error e := by
          simp only [removeFile, hstat, bind, Except.bind]
        rw [Except.error.inj (hremove.symm.trans he)]
      | ok n =>
        cases n with
        | directory =>
          rw [isDirectory_iff.2 hstat] at hdir
          cases hdir
        | file content =>
          have hremove : t.removeFile p = .ok (t.prune p.location) := by
            simp only [removeFile, hstat, bind, Except.bind]
            rfl
          cases hremove.symm.trans he

/-! ### One directory made anew -/

/-- The tree with what a path leads to removed and the directory made again. -/
structure FileTree.Renewed (t : FileTree) (p : Path) (s : FileTree) : Prop where
  /-- Where the path leads to nothing, nothing is removed. -/
  paved : t.stat p = .error .notFound → t.Paved p s
  keepsAt : ∀ l, ¬ p.location <+: l → t.KeepsAt s l (p.Through l)
  get?_of_prefix : t.stat p ≠ .error .notFound → ∀ l, p.location <+: l →
    s.get? l = none ∨ s.get? l = some .directory ∧ p.Through l
  get?_location : p.location ≠ [] → s.get? p.location = some .directory

/-- A directory removed and made again. -/
def renew (p : Path) : FileAction FileError Unit := do
  removeAll p
  createDirectories p

theorem renewed_of_run (h : (renew p).run t = (.ok (), s)) : t.Renewed p s := by
  obtain ⟨⟨⟩, u, hu, h⟩ := run_bind_eq_ok h
  have hpaved := paved_createDirectories h
  have hnew : p.location ≠ [] → s.get? p.location = some .directory := by
    intro hne
    obtain ⟨k, hk, hdir⟩ := stat_eq_ok_iff.1 (stat_of_createDirectories h hne)
    rwa [locate_eq_ok hk] at hdir
  rcases removeAll_eq_ok hu with ⟨hnothing, rfl⟩ | ⟨⟨n, hn⟩, hcleared⟩
  · exact ⟨fun _ => hpaved, fun l _ => hpaved l, fun h => absurd hnothing h, hnew⟩
  · refine ⟨fun hnothing => ?_, fun l hl => ?_, fun _ l hl => ?_, hnew⟩
    · rw [hn] at hnothing
      cases hnothing
    · rw [KeepsAt, ← hcleared.get?_apart l hl]
      exact hpaved l
    · rcases hpaved l with hsame | ⟨-, hmade⟩
      · rcases hcleared.get?_of_prefix l hl with hnone | ⟨rfl, hdir⟩
        · exact .inl (hsame.trans hnone)
        · exact .inr ⟨hsame.trans hdir, p.through_location⟩
      · exact .inr hmade

namespace FileTree.Renewed

/-- Files in the directory stay if the path leads to nothing. -/
theorem file_iff_of_prefix (h : t.Renewed p s) (hl : p.location <+: l) :
    s.get? l = some (.file content) ↔
      t.stat p = .error .notFound ∧ t.get? l = some (.file content) := by
  by_cases hnothing : t.stat p = .error .notFound
  · rw [(h.paved hnothing l).get?_eq_file_iff, and_iff_right hnothing]
  · refine iff_of_false (fun hfile => ?_) fun hboth => hnothing hboth.1
    rcases h.get?_of_prefix hnothing l hl with hnone | ⟨hdir, -⟩
    · rw [hnone] at hfile
      cases hfile
    · rw [hdir] at hfile
      cases hfile

/-- Nothing is in the directory if the path never goes up. -/
theorem get?_of_isPlain (h : t.Renewed p s) (hp : p.IsPlain) (hne : p.location ≠ [])
    (hl : p.location <+: l) (hbelow : p.location ≠ l) : s.get? l = none := by
  have hway : ¬ p.Through l := fun hway =>
    hbelow (hl.eq_of_length_le (hway.prefix_of_isPlain hp).length_le)
  by_cases hnothing : t.stat p = .error .notFound
  · have hnone := get?_eq_none_of_within (get?_location_of_stat hp hne hnothing) hl
    rcases h.paved hnothing l with hsame | ⟨-, -, hmade⟩
    · rw [hsame, hnone]
    · exact absurd hmade hway
  · rcases h.get?_of_prefix hnothing l hl with hnone | ⟨-, hmade⟩
    · exact hnone
    · exact absurd hmade hway

end FileTree.Renewed

/-! ### All output -/

/-- Whether two locations are apart, so that neither lies in the other. -/
def FileTree.Apart (l k : Location) : Prop := ¬ l <+: k ∧ ¬ k <+: l

instance (l k : Location) : Decidable (FileTree.Apart l k) := inferInstanceAs (Decidable (_ ∧ _))

/-- Nothing lies in both of two places that are apart. -/
theorem FileTree.Apart.not_within {l k m : Location} (h : Apart l k) (hl : l <+: m) : ¬ k <+: m :=
  fun hk => (List.prefix_or_prefix_of_prefix hl hk).elim h.1 h.2

namespace OutputPaths

variable {o : OutputPaths} {d : Path} {ds : List Path}

/-- The places that a pass owns. -/
def places (o : OutputPaths) : List Path := o.directories ++ [o.metadata]

theorem metadata_mem_places (o : OutputPaths) : o.metadata ∈ o.places :=
  List.mem_append_right _ (List.mem_singleton_self _)

theorem mem_places_of_mem_directories (hd : d ∈ o.directories) : d ∈ o.places :=
  List.mem_append_left _ hd

/-- Whether all places that a pass owns lie apart. -/
def Exclusive (o : OutputPaths) : Prop :=
  o.places.Pairwise fun p q => Apart p.location q.location

instance (o : OutputPaths) : Decidable o.Exclusive :=
  inferInstanceAs (Decidable (List.Pairwise _ _))

/-- The directories of a list that nothing is found at when they are made anew one after the
other. -/
def overlookedAmong : List Path → FileTree → List Path
  | [], _ => []
  | d :: ds, t =>
    (if t.stat d = .error .notFound then [d] else []) ++ overlookedAmong ds ((renew d).run t).2

/-- The directories that nothing is found at when a pass clears its output. -/
def overlooked (o : OutputPaths) (t : FileTree) : List Path := overlookedAmong o.directories t

theorem overlookedAmong_subset (ds : List Path) (t : FileTree) : overlookedAmong ds t ⊆ ds := by
  induction ds generalizing t with
  | nil => exact List.Subset.refl _
  | cons d ds ih =>
    intro x hx
    rcases List.mem_append.1 hx with hx | hx
    · split at hx
      · exact List.mem_singleton.1 hx ▸ List.mem_cons_self
      · cases hx
    · exact List.mem_cons_of_mem d (ih _ hx)

/-- Apart from the directories nothing changes but for what is made on their ways. -/
theorem keepsAt_of_each {done : List Unit} (h : (each renew ds).run t = (.ok done, s))
    (hl : ∀ d ∈ ds, ¬ d.location <+: l) : t.KeepsAt s l (∃ d ∈ ds, d.Through l) := by
  induction ds generalizing t done with
  | nil =>
    obtain ⟨-, rfl⟩ := run_pure_eq_ok h
    exact .refl t l _
  | cons d ds ih =>
    obtain ⟨⟨⟩, u, rest, -, hfirst, hrest⟩ := run_each_cons_eq_ok h
    have hrenewed := renewed_of_run hfirst
    refine ((hrenewed.keepsAt l (hl d List.mem_cons_self)).mono ?_).trans
      ((ih hrest fun x hx => hl x (List.mem_cons_of_mem d hx)).mono ?_)
    · exact fun hway => ⟨d, List.mem_cons_self, hway⟩
    · exact fun ⟨x, hx, hway⟩ => ⟨x, List.mem_cons_of_mem d hx, hway⟩

/-- What clearing leaves in directories that lie apart. -/
structure Emptied (ds : List Path) (t s : FileTree) : Prop where
  isDirectory : ∀ d ∈ ds, s.get? d.location = some .directory
  /-- Files stay exactly where they are overlooked. -/
  file_iff : ∀ d ∈ ds, ∀ l, d.location <+: l → ∀ content,
    s.get? l = some (.file content) ↔ d ∈ overlookedAmong ds t ∧ t.get? l = some (.file content)
  /-- Nothing stays where paths never go up. -/
  get?_of_isPlain : (∀ d ∈ ds, d.IsPlain) → ∀ d ∈ ds, ∀ l, d.location <+: l → d.location ≠ l →
    s.get? l = none

theorem emptied_of_each {done : List Unit} (h : (each renew ds).run t = (.ok done, s))
    (hds : ds.Pairwise fun p q => Apart p.location q.location)
    (hne : ∀ d ∈ ds, d.location ≠ []) : Emptied ds t s := by
  induction ds generalizing t done with
  | nil => exact ⟨List.forall_mem_nil _, List.forall_mem_nil _, fun _ => List.forall_mem_nil _⟩
  | cons d ds ih =>
    obtain ⟨⟨⟩, u, rest, -, hfirst, hrest⟩ := run_each_cons_eq_ok h
    obtain ⟨hapart, hds⟩ := List.pairwise_cons.1 hds
    have hrenewed := renewed_of_run hfirst
    have hemptied := ih hrest hds fun x hx => hne x (List.mem_cons_of_mem d hx)
    -- the other directories lie apart from what is in this one, and the other way round
    have hothers {l : Location} (hl : d.location <+: l) : ∀ x ∈ ds, ¬ x.location <+: l :=
      fun x hx => (hapart x hx).not_within hl
    have hself {x : Path} (hx : x ∈ ds) {l : Location} (hl : x.location <+: l) :
        ¬ d.location <+: l := fun hdl => hothers hdl x hx hl
    have hnext : d ∉ ds := fun hd => (hapart d hd).1 List.prefix_rfl
    have hlate : overlookedAmong (d :: ds) t =
        (if t.stat d = .error .notFound then [d] else []) ++ overlookedAmong ds u := by
      rw [overlookedAmong, hfirst]
    refine ⟨?_, ?_, ?_⟩
    · intro x hx
      rcases List.mem_cons.1 hx with rfl | hx
      · have hmade := hrenewed.get?_location (hne x List.mem_cons_self)
        exact (keepsAt_of_each hrest (hothers List.prefix_rfl)).get?_of_some hmade
      · exact hemptied.isDirectory x hx
    · intro x hx l hl content
      rcases List.mem_cons.1 hx with rfl | hx
      · have hfound : x ∈ overlookedAmong (x :: ds) t ↔ t.stat x = .error .notFound := by
          rw [hlate, List.mem_append]
          constructor
          · rintro (hx | hx)
            · split at hx
              · assumption
              · cases hx
            · exact absurd (overlookedAmong_subset ds u hx) hnext
          · intro hnothing
            rw [if_pos hnothing]
            exact .inl (List.mem_singleton_self x)
        rw [hfound, ← hrenewed.file_iff_of_prefix hl]
        exact (keepsAt_of_each hrest (hothers hl)).get?_eq_file_iff
      · have hfound : x ∈ overlookedAmong (d :: ds) t ↔ x ∈ overlookedAmong ds u := by
          rw [hlate, List.mem_append, or_iff_right]
          intro hd
          split at hd
          · exact hnext (List.mem_singleton.1 hd ▸ hx)
          · cases hd
        rw [hfound, hemptied.file_iff x hx l hl content,
          (hrenewed.keepsAt l (hself hx hl)).get?_eq_file_iff]
    · intro hplain x hx l hl hbelow
      rcases List.mem_cons.1 hx with rfl | hx
      · have hnone := hrenewed.get?_of_isPlain (hplain x List.mem_cons_self)
          (hne x List.mem_cons_self) hl hbelow
        rcases keepsAt_of_each hrest (hothers hl) with hsame | ⟨-, -, y, hy, hway⟩
        · rw [hsame, hnone]
        · have hy' := hway.prefix_of_isPlain (hplain y (List.mem_cons_of_mem x hy))
          exact absurd (hl.trans hy') (hapart y hy).1
      · exact hemptied.get?_of_isPlain (fun y hy => hplain y (List.mem_cons_of_mem d hy)) x hx l hl
          hbelow

theorem Exclusive.directories (h : o.Exclusive) :
    o.directories.Pairwise fun p q => Apart p.location q.location :=
  (List.pairwise_append.1 h).1

/-- A location is in at most one of the directories. -/
theorem Exclusive.eq_of_prefix {d' : Path} (h : o.Exclusive) (hd : d ∈ o.directories)
    (hd' : d' ∈ o.directories) {l : Location} (hl : d.location <+: l) (hl' : d'.location <+: l) :
    d = d' := by
  have hdirectories := h.directories
  generalize o.directories = ds at hd hd' hdirectories
  induction ds with
  | nil => cases hd
  | cons x ds ih =>
    obtain ⟨hapart, hds⟩ := List.pairwise_cons.1 hdirectories
    have hother {y : Path} (hy : y ∈ ds) (hxl : x.location <+: l) : ¬ y.location <+: l :=
      (hapart y hy).not_within hxl
    rcases List.mem_cons.1 hd with rfl | hrest
    · rcases List.mem_cons.1 hd' with rfl | hrest'
      · rfl
      · exact absurd hl' (hother hrest' hl)
    · rcases List.mem_cons.1 hd' with rfl | hrest'
      · exact absurd hl (hother hrest hl')
      · exact ih hrest hrest' hds

theorem Exclusive.metadata (h : o.Exclusive) (hd : d ∈ o.directories) :
    Apart d.location o.metadata.location :=
  (List.pairwise_append.1 h).2.2 d hd o.metadata (List.mem_singleton_self _)

theorem Exclusive.sources (h : o.Exclusive) :
    Apart o.resources.location o.sources.location ∧
      Apart o.assets.location o.sources.location := by
  have hdirectories := h.directories
  rw [OutputPaths.directories, List.pairwise_cons, List.pairwise_cons] at hdirectories
  exact ⟨hdirectories.1 _ (by simp), hdirectories.2.1 _ (by simp)⟩

/-- The root lies in no place that is apart from others. -/
theorem Exclusive.location_ne_nil (h : o.Exclusive) (hd : d ∈ o.directories) :
    d.location ≠ [] := by
  intro hroot
  refine (h.metadata hd).1 ?_
  rw [hroot]
  exact List.nil_prefix

/-- **What clearing leaves of the output.** -/
theorem emptied_of_clear (hexclusive : o.Exclusive) (h : o.clear.run t = (.ok (), s)) :
    Emptied o.directories t s := by
  obtain ⟨done, u, hu, h⟩ := run_bind_eq_ok h
  have hemptied : Emptied o.directories t u := by
    refine emptied_of_each hu hexclusive.directories fun d hd => ?_
    exact hexclusive.location_ne_nil hd
  have hkept {d : Path} (hd : d ∈ o.directories) {l : Location} (hl : d.location <+: l) :
      s.get? l = u.get? l := by
    rcases removeAll_eq_ok h with ⟨-, rfl⟩ | ⟨-, hcleared⟩
    · rfl
    · exact hcleared.get?_apart l ((hexclusive.metadata hd).not_within hl)
  refine ⟨fun d hd => ?_, fun d hd l hl content => ?_, fun hplain d hd l hl hbelow => ?_⟩
  · rw [hkept hd List.prefix_rfl]
    exact hemptied.isDirectory d hd
  · rw [hkept hd hl]
    exact hemptied.file_iff d hd l hl content
  · rw [hkept hd hl]
    exact hemptied.get?_of_isPlain hplain d hd l hl hbelow

end OutputPaths

end ResourceCompiler
