import ResourceCompiler.Proofs.FileTree.Clearing
import ResourceCompiler.Proofs.FileTree.Climbing

/-!
# Clearing once and again

Where no path to output goes up from a place of output, or from a location that is missing, clearing
leaves nothing in the directories, and each of them stands at the end of a step down. Clearing again
then takes exactly what has come into the directories and the file with the artifact.

* `renew_isDirect`: a directory made anew by a path that gets there by its last step only.
* `exists_renew_of_isDirectory`: a directory made anew where it stands.
* `OutputPaths.Unmixed`, `OutputPaths.Renewable`: directories that do not get in each other's way.
* `OutputPaths.Readied`, `OutputPaths.Vacated`: the trees that clearing leaves.
* `OutputPaths.readied_of_clear`, `OutputPaths.exists_clear`: clearing once, and again.
-/

namespace ResourceCompiler

open FileAction FileTree

variable {s t u : FileTree} {p q : Path} {l : Location} {content : ByteArray}

namespace FileTree

/-- A path that finds nothing leads to nothing if there is something wherever it goes up from. -/
theorem get?_location_of_there (hne : p.location ≠ []) (h : t.stat p = .error .notFound)
    (hthere : ∀ k, p.ClimbsFrom k → ∀ l, l <+: k → p.Through l → t.get? l ≠ none) :
    t.get? p.location = none := by
  obtain ⟨l, hl, hmissing⟩ := exists_missing_of_stat h hne
  rcases hl.prefix_or_climbs with hend | ⟨k, hk, hlk⟩
  · exact get?_eq_none_of_within hmissing hend
  · exact absurd hmissing (hthere k hk l hlk hl)

end FileTree

/-! ### One directory -/

/-- A directory that is made where nothing is stands at the end of a step down, unless the path has
been there before. -/
theorem lastStep_of_createDirectories (hdirect : p.IsDirect) (vacant : t.get? p.location = none)
    (h : (createDirectories p).run t = (.ok (), s)) : ∃ name, p.lastStep = .down name := by
  have hne : p.location ≠ [] := by
    intro hroot
    rw [hroot] at vacant
    cases vacant
  obtain ⟨u, hu, hlast⟩ := run_createDirectoriesWith_succ (Path.text_ne_of_location hne) h
  -- what is made to hold the directory is not the directory itself
  have hmissing : u.get? p.location = none := by
    rcases hu with rfl | ⟨parent, r, hparent, hholders⟩
    · exact vacant
    · rcases (run_createDirectoriesWith _ hholders).1 p.location with hsame | ⟨-, -, hway⟩
      · rw [hsame, vacant]
      · have hstrides : p.strides ≠ [] := by
          intro hnil
          rw [Path.location_eq_foldl_strides, hnil] at hne
          exact hne rfl
        have hleaves := Path.leaves_of_parent? hparent hstrides hway
        exact absurd List.prefix_rfl (hdirect.not_within hleaves)
  rcases hlast with hnew | ⟨-, hthere⟩
  · exact (createDirectory_eq_ok hnew).2.2.1
  · have hdir := get?_of_stat (hthere rfl)
    rw [hmissing] at hdir
    cases hdir

/-- What the way to a directory leads through stays where the directory is cleared, and leads there
if it is still there. -/
theorem FileTree.Cleared.holds_of_isDirectory (h : t.Cleared p.location s) (hdirect : p.IsDirect)
    (hholds : t.Holds p) (hdir : s.get? p.location = some .directory) : s.Holds p := by
  obtain ⟨n, hn⟩ := hholds
  obtain ⟨k, hk, -⟩ := stat_eq_ok_iff.1 hn
  obtain rfl := locate_eq_ok hk
  refine ⟨.directory, stat_eq_ok_iff.2 ⟨_, locate_of_through hk fun l hl hkept => ?_, hdir⟩⟩
  by_cases hpre : p.location <+: l
  · rw [hdirect.eq_location hl hpre, hdir]
  · rw [h.get?_apart l hpre, hkept]

/-- **A directory made anew** by a path that gets there by its last step only. Nothing is in it, and
the last step goes down. -/
theorem renew_isDirect (hdirect : p.IsDirect) (hne : p.location ≠ [])
    (hnothing : t.stat p = .error .notFound → t.get? p.location = none)
    (h : (renew p).run t = (.ok (), s)) :
    (∃ name, p.lastStep = .down name) ∧ s.stat p = .ok .directory ∧
      ∀ l, p.location <+: l → p.location ≠ l → s.get? l = none := by
  have hrenewed := renewed_of_run h
  obtain ⟨⟨⟩, u, hu, hmake⟩ := run_bind_eq_ok h
  refine ⟨?_, stat_of_createDirectories hmake hne, fun l hl hself => ?_⟩
  · refine lastStep_of_createDirectories hdirect ?_ hmake
    rcases removeAll_eq_ok hu with ⟨hmissing, rfl⟩ | ⟨hholds, hcleared⟩
    · exact hnothing hmissing
    · rcases hcleared.get?_of_prefix p.location List.prefix_rfl with hnone | ⟨-, hdir⟩
      · exact hnone
      · -- a directory that stays is reported
        rcases removeAll_outcome t p with ⟨v, hv, hgone, -⟩ | ⟨v, e, hv, -⟩
        · obtain rfl : v = u := (Prod.mk.inj (hv.symm.trans hu)).2
          exact absurd (hcleared.holds_of_isDirectory hdirect hholds hdir) hgone
        · cases (Prod.mk.inj (hv.symm.trans hu)).1
  · have hway : ¬ p.Through l := fun hway => hself (hdirect.eq_location hway hl).symm
    by_cases hmissing : t.stat p = .error .notFound
    · have hnone := get?_eq_none_of_within (hnothing hmissing) hl
      rcases hrenewed.paved hmissing l with hsame | ⟨-, -, hmade⟩
      · rw [hsame, hnone]
      · exact absurd hmade hway
    · rcases hrenewed.get?_of_prefix hmissing l hl with hnone | ⟨-, hmade⟩
      · exact hnone
      · exact absurd hmade hway

/-- **A directory made anew where it stands** is emptied, and nothing else changes. -/
theorem exists_renew_of_isDirectory {name : String} (hdirect : p.IsDirect)
    (hlast : p.lastStep = .down name) (h : t.stat p = .ok .directory) :
    ∃ s, (renew p).run t = (.ok (), s) ∧ s.Agree (t.emptied p.location) := by
  have hdir := isDirectory_iff.2 h
  obtain ⟨k, hk, hget⟩ := stat_eq_ok_iff.1 h
  obtain rfl := locate_eq_ok hk
  obtain ⟨m, hm, hlong, hlocation⟩ := locateHolder_of_locate hk
  have hholds : (t.emptied p.location).Holds p := by
    refine ⟨.directory, stat_of_through h fun l hl _ => ?_⟩
    rw [get?_emptied, if_neg]
    exact fun hbelow => hbelow.2 (hdirect.eq_location hl hbelow.1).symm
  rcases removeDirectory_emptied h with ⟨hstuck, -⟩ | ⟨hgone, -⟩ | ⟨-, u, -, hu, -⟩
  · exact absurd hlast (hstuck.lastStep_ne name)
  · exact absurd hholds hgone
  · obtain ⟨rfl, -, hne⟩ := removeDirectory_eq_ok hu
    have hremove : (removeAll p).run t = (.ok (), (t.emptied p.location).prune p.location) := by
      rw [run_removeAll_of_isDirectory hdir]
      refine ifPresent_eq_ok (.inl ?_)
      rw [run_removeTree h]
      exact ifPresent_eq_ok (.inl (run_change_ok hu))
    -- the directory is made again where its name leads as before
    have hapart (k : Location) (hk : ¬ p.location <+: k) :
        ((t.emptied p.location).prune p.location).get? k = t.get? k :=
      (cleared_prune hne fun k hk => (cleared_emptied hget).get?_apart k hk).get?_apart k hk
    have hholder : ((t.emptied p.location).prune p.location).locateHolder p = .ok m := by
      refine locateHolder_of_leaves hlast hm fun k hk hkept => ?_
      rw [hapart k (hdirect.not_within hk), hkept]
    have hname := locateName_of_locateHolder hholder hlong
    rw [← hlocation] at hname
    have vacant : ((t.emptied p.location).prune p.location).get? p.location = none := by
      rw [get?_prune _ _ _ hne, if_pos (List.isPrefixOf_iff_prefix.2 List.prefix_rfl)]
    obtain ⟨s, hs, hgains⟩ := exists_createDirectory hname vacant
    refine ⟨s, ?_, fun k => ?_⟩
    · rw [renew, run_bind_of_eq_ok hremove, createDirectories, createDirectoriesWith,
        if_neg (Path.text_ne_of_location hne)]
      simp only [FileAction.run, bind, FileAction.bind, attempt, change, hs]
      rfl
    · rw [hgains k, get?_emptied]
      by_cases hself : p.location = k
      · subst hself
        rw [if_pos rfl, if_neg fun hbelow => hbelow.2 rfl, hget]
      · rw [if_neg hself]
        by_cases hpre : p.location <+: k
        · have hroot : k ≠ [] := fun hk => hne (List.prefix_nil.1 (hk ▸ hpre))
          rw [if_pos ⟨hpre, hself⟩, get?_prune _ _ _ hroot,
            if_pos (List.isPrefixOf_iff_prefix.2 hpre)]
        · rw [if_neg fun hbelow => hpre hbelow.1, hapart k hpre]

/-! ### Directories one after the other -/

namespace OutputPaths

variable {o : OutputPaths} {ds : List Path}

/-- Directories that lie apart, and whose paths do not go up from any of them. -/
structure Unmixed (ds : List Path) : Prop where
  apart : ds.Pairwise fun p q => Apart p.location q.location
  not_within : ∀ d ∈ ds, ∀ k, d.ClimbsFrom k → ∀ x ∈ ds, ¬ x.location <+: k
  location_ne_nil : ∀ d ∈ ds, d.location ≠ []

namespace Unmixed

variable {d x : Path}

theorem isDirect (h : Unmixed ds) (hd : d ∈ ds) : d.IsDirect :=
  fun k hk => h.not_within d hd k hk d hd

theorem tail (h : Unmixed (d :: ds)) : Unmixed ds where
  apart := (List.pairwise_cons.1 h.apart).2
  not_within := fun y hy k hk x hx =>
    h.not_within y (List.mem_cons_of_mem d hy) k hk x (List.mem_cons_of_mem d hx)
  location_ne_nil := fun x hx => h.location_ne_nil x (List.mem_cons_of_mem d hx)

/-- The way to the first directory keeps out of the other ones. -/
theorem head_avoids (h : Unmixed (d :: ds)) (hx : x ∈ ds) : d.Avoids x.location :=
  ⟨((List.pairwise_cons.1 h.apart).1 x hx).2,
    fun k hk => h.not_within d List.mem_cons_self k hk x (List.mem_cons_of_mem d hx)⟩

/-- The ways to the other directories keep out of the first one. -/
theorem avoids_head (h : Unmixed (d :: ds)) (hx : x ∈ ds) : x.Avoids d.location :=
  ⟨((List.pairwise_cons.1 h.apart).1 x hx).1,
    fun k hk => h.not_within x (List.mem_cons_of_mem d hx) k hk d List.mem_cons_self⟩

end Unmixed

/-- Directories that stand ready to be cleared again: the paths lead to them by a step down. -/
structure Standing (ds : List Path) (t : FileTree) : Prop where
  stat_eq : ∀ d ∈ ds, t.stat d = .ok .directory
  lastStep_eq : ∀ d ∈ ds, ∃ name, d.lastStep = .down name

/-- The first directory does not come to be where another one is. -/
theorem Unmixed.get?_location {d x : Path} (hds : Unmixed (d :: ds)) (h : t.Renewed d u)
    (hx : x ∈ ds) : u.get? x.location = t.get? x.location := by
  have hapart := (List.pairwise_cons.1 hds.apart).1 x hx
  rcases h.keepsAt x.location hapart.1 with hsame | ⟨-, -, hway⟩
  · exact hsame
  · exact absurd List.prefix_rfl ((hds.head_avoids hx).not_within hway)

/-- **Directories made anew** where nothing is that is overlooked. Nothing is in them. -/
theorem standing_of_each {done : List Unit} (hds : Unmixed ds)
    (hvacant : ∀ d ∈ overlookedAmong ds t, t.get? d.location = none)
    (h : (each renew ds).run t = (.ok done, s)) :
    Standing ds s ∧ ∀ d ∈ ds, ∀ l, d.location <+: l → d.location ≠ l → s.get? l = none := by
  induction ds generalizing t done with
  | nil => exact ⟨⟨List.forall_mem_nil _, List.forall_mem_nil _⟩, List.forall_mem_nil _⟩
  | cons d ds ih =>
    obtain ⟨⟨⟩, u, rest, -, hfirst, hrest⟩ := run_each_cons_eq_ok h
    have hhead : d ∈ d :: ds := List.mem_cons_self
    have hne := hds.location_ne_nil d hhead
    rw [overlookedAmong, List.forall_mem_append, hfirst] at hvacant
    obtain ⟨hname, hstat, hempty⟩ := renew_isDirect (hds.isDirect hhead) hne
      (fun hnothing => hvacant.1 d (by rw [if_pos hnothing]; exact List.mem_singleton_self d))
      hfirst
    have hrenewed := renewed_of_run hfirst
    have hlater : ∀ x ∈ overlookedAmong ds u, u.get? x.location = none := by
      intro x hx
      rw [hds.get?_location hrenewed (overlookedAmong_subset ds u hx), hvacant.2 x hx]
    obtain ⟨hstanding, hothers⟩ := ih hds.tail hlater hrest
    refine ⟨⟨List.forall_mem_cons.2 ⟨?_, hstanding.stat_eq⟩,
      List.forall_mem_cons.2 ⟨hname, hstanding.lastStep_eq⟩⟩,
      List.forall_mem_cons.2 ⟨fun l hl hself => ?_, hothers⟩⟩
    · refine stat_of_through hstat fun k hk hsome => ?_
      rcases keepsAt_of_each hrest fun x hx => (hds.head_avoids hx).not_within hk with
        hsame | ⟨hnone, -, -⟩
      · exact hsame
      · exact absurd hnone hsome
    · rcases keepsAt_of_each hrest fun x hx =>
          ((List.pairwise_cons.1 hds.apart).1 x hx).not_within hl with hsame | ⟨-, -, x, hx, hway⟩
      · rw [hsame, hempty l hl hself]
      · exact absurd hl ((hds.avoids_head hx).not_within hway)

/-- Where paths go up only from where something is, nothing is at the ends of those that find
nothing. -/
theorem get?_of_overlooked {done : List Unit} (hds : Unmixed ds)
    (hthere : ∀ d ∈ ds, ∀ k, d.ClimbsFrom k → ∀ l, l <+: k → d.Through l → t.get? l ≠ none)
    (h : (each renew ds).run t = (.ok done, s)) :
    ∀ d ∈ overlookedAmong ds t, t.get? d.location = none := by
  induction ds generalizing t done with
  | nil => exact List.forall_mem_nil _
  | cons d ds ih =>
    obtain ⟨⟨⟩, u, rest, -, hfirst, hrest⟩ := run_each_cons_eq_ok h
    have hhead : d ∈ d :: ds := List.mem_cons_self
    have hrenewed := renewed_of_run hfirst
    -- what is there for the other directories is not in this one
    have hlater : ∀ x ∈ ds, ∀ k, x.ClimbsFrom k → ∀ l, l <+: k → x.Through l →
        u.get? l ≠ none := by
      intro x hx k hk l hlk hway hnone
      have hapart := (hds.avoids_head hx).not_within hway
      rcases hrenewed.keepsAt l hapart with hsame | ⟨-, hdir, -⟩
      · exact hthere x (List.mem_cons_of_mem d hx) k hk l hlk hway (hsame.symm.trans hnone)
      · rw [hnone] at hdir
        cases hdir
    rw [overlookedAmong, List.forall_mem_append, hfirst]
    refine ⟨fun x hx => ?_, fun x hx => ?_⟩
    · split at hx
      · rename_i hnothing
        obtain rfl := List.mem_singleton.1 hx
        exact get?_location_of_there (hds.location_ne_nil x hhead) hnothing (hthere x hhead)
      · cases hx
    · rw [← hds.get?_location hrenewed (overlookedAmong_subset ds u hx)]
      exact ih hds.tail hlater hrest x hx

/-- The tree without what is in some directories. -/
def EmptiedAll (ds : List Path) (t s : FileTree) : Prop :=
  ∀ l, s.get? l = if ∃ d ∈ ds, d.location <+: l ∧ d.location ≠ l then none else t.get? l

theorem EmptiedAll.cons {d : Path} (h : u.Agree (t.emptied d.location))
    (h' : EmptiedAll ds u s) : EmptiedAll (d :: ds) t s := by
  intro l
  rw [h' l, h l, get?_emptied]
  simp only [List.mem_cons, exists_eq_or_imp]
  by_cases hd : d.location <+: l ∧ d.location ≠ l
  · rw [if_pos hd, if_pos (Or.inl hd), ite_self]
  · simp only [hd, false_or, if_false]

/-- **Standing directories made anew** lose what is in them, and nothing else changes. -/
theorem exists_each_of_standing (hds : Unmixed ds) (h : Standing ds t) :
    ∃ s done, (each renew ds).run t = (.ok done, s) ∧ EmptiedAll ds t s := by
  induction ds generalizing t with
  | nil => exact ⟨t, [], rfl, fun l => (if_neg fun ⟨_, hd, _⟩ => List.not_mem_nil hd).symm⟩
  | cons d ds ih =>
    obtain ⟨name, hname⟩ := h.lastStep_eq d List.mem_cons_self
    obtain ⟨u, hu, hagree⟩ := exists_renew_of_isDirectory (hds.isDirect List.mem_cons_self) hname
      (h.stat_eq d List.mem_cons_self)
    have hstanding : Standing ds u := by
      refine ⟨fun x hx => ?_, fun x hx => h.lastStep_eq x (List.mem_cons_of_mem d hx)⟩
      refine stat_of_through (h.stat_eq x (List.mem_cons_of_mem d hx)) fun k hk _ => ?_
      rw [hagree k, get?_emptied, if_neg]
      exact fun hbelow => (hds.avoids_head hx).not_within hk hbelow.1
    obtain ⟨s, done, hs, hemptied⟩ := ih hds.tail hstanding
    exact ⟨s, () :: done, run_each_cons_of_eq_ok hu hs, .cons hagree hemptied⟩

/-! ### All output -/

/-- Whether what a pass owns lies apart, and the ways to it do not go up from there, or from where
nothing is. -/
structure Renewable (o : OutputPaths) (t : FileTree) : Prop where
  exclusive : o.Exclusive
  not_within : ∀ p ∈ o.places, ∀ k, p.ClimbsFrom k → ∀ q ∈ o.places, ¬ q.location <+: k
  there : ∀ p ∈ o.places, ∀ k, p.ClimbsFrom k → ∀ l, l <+: k → p.Through l → t.get? l ≠ none

namespace Renewable

variable {d : Path}

theorem unmixed (h : o.Renewable t) : Unmixed o.directories where
  apart := h.exclusive.directories
  not_within := fun d hd k hk x hx =>
    h.not_within d (mem_places_of_mem_directories hd) k hk x (mem_places_of_mem_directories hx)
  location_ne_nil := fun _ hd => h.exclusive.location_ne_nil hd

theorem isDirect_metadata (h : o.Renewable t) : o.metadata.IsDirect :=
  fun k hk => h.not_within _ o.metadata_mem_places k hk _ o.metadata_mem_places

theorem metadata_ne_nil (h : o.Renewable t) : o.metadata.location ≠ [] := by
  intro hroot
  have hresources : o.resources ∈ o.directories := List.mem_cons_self
  refine (h.exclusive.metadata hresources).2 ?_
  rw [hroot]
  exact List.nil_prefix

/-- The way to the artifact keeps out of the directories. -/
theorem metadata_avoids (h : o.Renewable t) (hd : d ∈ o.directories) :
    o.metadata.Avoids d.location :=
  ⟨(h.exclusive.metadata hd).1,
    fun k hk => h.not_within _ o.metadata_mem_places k hk d (mem_places_of_mem_directories hd)⟩

/-- What the artifact is held by is in none of the places. -/
theorem not_within_of_leaves (h : o.Renewable t) (hl : o.metadata.Leaves l) :
    ∀ p ∈ o.places, ¬ p.location <+: l := by
  intro p hp
  rcases List.mem_append.1 hp with hd | hp
  · exact (h.metadata_avoids hd).not_within hl.through
  · obtain rfl := List.mem_singleton.1 hp
    exact h.isDirect_metadata.not_within hl

/-- The ways to the directories keep out of the place of the artifact. -/
theorem avoids_metadata (h : o.Renewable t) (hd : d ∈ o.directories) :
    d.Avoids o.metadata.location :=
  ⟨(h.exclusive.metadata hd).2,
    fun k hk => h.not_within d (mem_places_of_mem_directories hd) k hk _ o.metadata_mem_places⟩

end Renewable

/-- The tree with the output cleared by paths that do not get in each other's way. -/
structure Readied (o : OutputPaths) (t s : FileTree) : Prop where
  standing : Standing o.directories s
  /-- The directories are empty. -/
  get?_below : ∀ d ∈ o.directories, ∀ l, d.location <+: l → d.location ≠ l → s.get? l = none
  /-- At the place of the artifact nothing is, or a directory with nothing in it. -/
  get?_metadata : ∀ l, o.metadata.location <+: l →
    s.get? l = none ∨ l = o.metadata.location ∧ s.get? l = some .directory
  keepsAt : ∀ l, (∀ p ∈ o.places, ¬ p.location <+: l) →
    t.KeepsAt s l (∃ d ∈ o.directories, d.Through l)

/-- **What clearing leaves** where the ways to the output do not go up from it. -/
theorem readied_of_clear (ho : o.Renewable t) (h : o.clear.run t = (.ok (), s)) :
    o.Readied t s := by
  obtain ⟨done, u, hu, h⟩ := run_bind_eq_ok h
  obtain ⟨hstanding, hempty⟩ := standing_of_each ho.unmixed
    (get?_of_overlooked ho.unmixed (fun d hd => ho.there d (mem_places_of_mem_directories hd)) hu)
    hu
  have hkept (l : Location) (hl : ∀ d ∈ o.directories, ¬ d.location <+: l) :
      t.KeepsAt u l (∃ d ∈ o.directories, d.Through l) := keepsAt_of_each hu hl
  have hcleared : (u.get? o.metadata.location = none ∧ s = u) ∨
      u.Cleared o.metadata.location s := by
    rcases removeAll_eq_ok h with ⟨hnothing, rfl⟩ | ⟨-, hcleared⟩
    · refine .inl ⟨get?_location_of_there ?_ hnothing fun k hk l hlk hway hnone => ?_, rfl⟩
      · exact ho.metadata_ne_nil
      · rcases hkept l fun d hd => (ho.metadata_avoids hd).not_within hway with
          hsame | ⟨-, hdir, -⟩
        · exact ho.there _ o.metadata_mem_places k hk l hlk hway (hsame.symm.trans hnone)
        · rw [hnone] at hdir
          cases hdir
    · exact .inr hcleared
  have hsame (l : Location) (hl : ¬ o.metadata.location <+: l) : s.get? l = u.get? l := by
    rcases hcleared with ⟨-, rfl⟩ | hcleared
    · rfl
    · exact hcleared.get?_apart l hl
  refine ⟨⟨fun d hd => ?_, hstanding.lastStep_eq⟩, fun d hd l hl hself => ?_, fun l hl => ?_,
    fun l hl => ?_⟩
  · refine stat_of_through (hstanding.stat_eq d hd) fun k hk _ => ?_
    exact hsame k ((ho.avoids_metadata hd).not_within hk)
  · rw [hsame l ((ho.exclusive.metadata hd).not_within hl), hempty d hd l hl hself]
  · rcases hcleared with ⟨hnone, rfl⟩ | hcleared
    · exact .inl (get?_eq_none_of_within hnone hl)
    · exact hcleared.get?_of_prefix l hl
  · rw [KeepsAt, hsame l (hl _ o.metadata_mem_places)]
    exact hkept l fun d hd => hl d (mem_places_of_mem_directories hd)

/-- The tree without what is in the directories, and without the artifact. -/
def Vacated (o : OutputPaths) (s u : FileTree) : Prop :=
  ∀ l, u.get? l =
    if (∃ d ∈ o.directories, d.location <+: l ∧ d.location ≠ l) ∨ o.metadata.location <+: l
    then none else s.get? l

namespace Vacated

variable {d : Path}

theorem get?_below (h : o.Vacated s u) (hd : d ∈ o.directories) (hl : d.location <+: l)
    (hself : d.location ≠ l) : u.get? l = none := by
  rw [h l, if_pos (Or.inl ⟨d, hd, hl, hself⟩)]

theorem get?_metadata (h : o.Vacated s u) (hl : o.metadata.location <+: l) : u.get? l = none := by
  rw [h l, if_pos (Or.inr hl)]

theorem get?_directory (h : o.Vacated s u) (ho : o.Exclusive) (hd : d ∈ o.directories) :
    u.get? d.location = s.get? d.location := by
  rw [h d.location, if_neg]
  rintro (⟨x, hx, hpre, hne⟩ | hpre)
  · exact hne (by rw [ho.eq_of_prefix hx hd hpre List.prefix_rfl])
  · exact (ho.metadata hd).2 hpre

theorem get?_outside (h : o.Vacated s u) (hl : ∀ d ∈ o.directories, ¬ d.location <+: l)
    (hmetadata : ¬ o.metadata.location <+: l) : u.get? l = s.get? l := by
  rw [h l, if_neg]
  rintro (⟨d, hd, hpre, -⟩ | hpre)
  · exact hl d hd hpre
  · exact hmetadata hpre

end Vacated

/-- **Clearing again** takes what is in the directories and the file with the artifact, and nothing
else. -/
theorem exists_clear (ho : o.Renewable t) (hs : Standing o.directories s)
    (hread : s.read o.metadata = .ok content) :
    ∃ u, o.clear.run s = (.ok (), u) ∧ o.Vacated s u := by
  obtain ⟨v, done, hv, hemptied⟩ := exists_each_of_standing ho.unmixed hs
  have hfile : v.stat o.metadata = .ok (.file content) := by
    refine stat_of_through (read_eq_ok_iff.1 hread) fun k hk _ => ?_
    rw [hemptied k, if_neg]
    rintro ⟨d, hd, hbelow, -⟩
    exact (ho.metadata_avoids hd).not_within hk hbelow
  have hremove : v.removeFile o.metadata = .ok (v.prune o.metadata.location) := by
    simp only [removeFile, hfile, bind, Except.bind]
    rfl
  have hdir : v.isDirectory o.metadata = false := by
    rw [Bool.eq_false_iff, Ne, isDirectory_iff, hfile]
    exact fun h => by cases h
  have hgone : (removeAll o.metadata).run v = (.ok (), v.prune o.metadata.location) := by
    rw [run_removeAll_of_not_isDirectory hdir]
    exact ifPresent_eq_ok (.inl (run_change_ok hremove))
  refine ⟨v.prune o.metadata.location, ?_, fun l => ?_⟩
  · show (each renew o.directories >>= fun _ => removeAll o.metadata).run s = _
    rw [run_bind_of_eq_ok hv, hgone]
  · have hne : o.metadata.location ≠ [] := (removeFile_eq_ok hremove).2.2
    by_cases hl : l = []
    · subst hl
      rw [if_neg]
      · rfl
      · rintro (⟨d, hd, hpre, hself⟩ | hpre)
        · exact hself (List.prefix_nil.1 hpre)
        · exact hne (List.prefix_nil.1 hpre)
    · rw [get?_prune _ _ _ hl, hemptied l]
      by_cases hpre : o.metadata.location <+: l
      · rw [if_pos (List.isPrefixOf_iff_prefix.2 hpre), if_pos (Or.inr hpre)]
      · rw [if_neg fun h => hpre (List.isPrefixOf_iff_prefix.1 h)]
        simp only [hpre, or_false]

end OutputPaths

end ResourceCompiler
