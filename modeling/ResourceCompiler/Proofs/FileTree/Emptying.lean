import ResourceCompiler.Proofs.FileTree.Locality
import ResourceCompiler.Proofs.FileTree.Renewal

/-!
# What clearing leaves in the directories

After a successful clearing a directory holds what the ways to it and to the later directories lead
through, and what was there before if it has been overlooked. Nothing is at the path of the
artifact, and nothing else has changed but for the directories made on the ways. Where no path to a
directory goes up from a place of output, and nothing is where a directory is overlooked, the
directories are empty, and clearing again changes nothing.

* `isPart_removeAll`, `stat_of_removeAll`: nothing is left at a path that has been cleared.
* `FileTree.Renewed.isSome_iff`: what is there after one directory has been made anew.
* `OutputPaths.isSome_iff_of_each`: what is there after several.
* `OutputPaths.Orderly`: paths that clearing works for as it is meant to.
* `OutputPaths.outcome_of_clear`: what clearing leaves.
-/

namespace ResourceCompiler

open FileAction FileTree

variable {s t u : FileTree} {p : Path} {l : Location}

/-! ### Removing -/

/-- Removing only takes away. -/
theorem isPart_removeAll (t : FileTree) (p : Path) : ((removeAll p).run t).2.IsPart t := by
  have hprune (v : FileTree) (hv : v.IsPart t) : (v.prune p.location).IsPart t := by
    intro l
    by_cases hl : l = []
    · rw [hl]
      exact .inr rfl
    · rw [get?_prune v _ _ hl]
      split
      · exact .inl rfl
      · exact hv l
  cases hdir : t.isDirectory p with
  | true =>
    rw [run_removeAll_of_isDirectory hdir, snd_run_ifPresent,
      run_removeTree (isDirectory_iff.1 hdir), snd_run_ifPresent]
    rcases snd_run_change (fun t => t.removeDirectory p) (t.emptied p.location) with
      hok | ⟨-, hsame⟩
    · rw [(removeDirectory_eq_ok hok).1]
      exact hprune _ (isPart_emptied t p.location)
    · rw [hsame]
      exact isPart_emptied t p.location
  | false =>
    rw [run_removeAll_of_not_isDirectory hdir, snd_run_ifPresent]
    rcases snd_run_change (fun t => t.removeFile p) t with hok | ⟨-, hsame⟩
    · rw [(removeFile_eq_ok hok).1]
      exact hprune t fun l => .inr rfl
    · rw [hsame]
      exact fun l => .inr rfl

/-- **Nothing is left** at a path that has been removed. -/
theorem stat_of_removeAll (h : (removeAll p).run t = (.ok (), s)) :
    s.stat p = .error .notFound := by
  rcases removeAll_eq_ok h with ⟨hnothing, rfl⟩ | ⟨⟨n, hn⟩, -⟩
  · exact hnothing
  have hgone : ¬ s.Holds p := by
    rcases removeAll_outcome t p with ⟨v, hv, hgone, -⟩ | ⟨v, e, hv, -⟩
    · rwa [(Prod.mk.inj (hv.symm.trans h)).2] at hgone
    · cases (Prod.mk.inj (hv.symm.trans h)).1
  have hpart : s.IsPart t := by
    have hpart := isPart_removeAll t p
    rwa [h] at hpart
  obtain ⟨l, hl, -⟩ := stat_eq_ok_iff.1 hn
  have hcheck := check_of_locate hl
  rw [locate_eq_walk hcheck] at hl
  rcases walk_of_isPart hpart hl with harrive | hmissing
  · rw [← locate_eq_walk hcheck] at harrive
    cases hget : s.get? l with
    | none =>
      rw [stat, harrive]
      simp only [bind, Except.bind, hget]
      rfl
    | some m => exact absurd ⟨m, stat_eq_ok_iff.2 ⟨l, harrive, hget⟩⟩ hgone
  · rw [← locate_eq_walk hcheck] at hmissing
    rw [stat, hmissing]
    rfl

theorem run_removeAll_of_stat (h : t.stat p = .error .notFound) :
    (removeAll p).run t = (.ok (), t) := by
  have hdir : t.isDirectory p = false := by
    rw [Bool.eq_false_iff, Ne, isDirectory_iff, h]
    exact fun h => by cases h
  have hremove : t.removeFile p = .error .notFound := by
    simp only [removeFile, h, bind, Except.bind]
  rw [run_removeAll_of_not_isDirectory hdir]
  exact ifPresent_eq_ok (.inr (run_change_error hremove))

/-! ### Making anew -/

/-- Whatever is kept, or made for a reason, is there exactly for one of the two. -/
theorem FileTree.KeepsAt.ne_none_iff {made : Prop} (h : t.KeepsAt s l made)
    (hmade : made → s.get? l ≠ none) : s.get? l ≠ none ↔ t.get? l ≠ none ∨ made := by
  constructor
  · intro hsome
    rcases h with hsame | ⟨-, -, hway⟩
    · exact .inl (hsame ▸ hsome)
    · exact .inr hway
  · rintro (hsome | hway)
    · obtain ⟨n, hn⟩ := Option.ne_none_iff_exists'.1 hsome
      rw [h.get?_of_some hn]
      exact Option.some_ne_none n
    · exact hmade hway

/-- The way to a directory that has been made anew is there. -/
theorem ne_none_of_renew (h : (renew p).run t = (.ok (), s)) (hne : p.location ≠ [])
    (hl : p.Through l) : s.get? l ≠ none := by
  obtain ⟨⟨⟩, u, -, hmake⟩ := run_bind_eq_ok h
  rcases get?_of_through (stat_of_createDirectories hmake hne) hl with hdir | ⟨-, hdir⟩
  all_goals
    rw [hdir]
    exact Option.some_ne_none _

/-- **What is there after one directory has been made anew**: inside of it what has been overlooked
and what is on its own way, and elsewhere what was there and what is on its way. -/
theorem ne_none_iff_of_renew (h : (renew p).run t = (.ok (), s)) (hne : p.location ≠ [])
    (l : Location) : s.get? l ≠ none ↔
      t.get? l ≠ none ∧ (p.location <+: l → t.stat p = .error .notFound) ∨ p.Through l := by
  have hrenewed := renewed_of_run h
  have hway := ne_none_of_renew (l := l) h hne
  by_cases hl : p.location <+: l
  · by_cases hnothing : t.stat p = .error .notFound
    · rw [(hrenewed.paved hnothing l).ne_none_iff hway, and_iff_left fun _ => hnothing]
    · rw [or_iff_right fun hkept => hnothing (hkept.2 hl)]
      refine ⟨fun hsome => ?_, hway⟩
      rcases hrenewed.get?_of_prefix hnothing l hl with hnone | ⟨-, hmade⟩
      · exact absurd hnone hsome
      · exact hmade
  · rw [(hrenewed.keepsAt l hl).ne_none_iff hway, and_iff_left fun hpre => absurd hpre hl]

namespace OutputPaths

variable {o : OutputPaths} {d : Path} {ds before after : List Path}

/-- What is there outside of directories that have been made anew. -/
theorem ne_none_iff_of_each {done : List Unit} (h : (each renew ds).run t = (.ok done, s))
    (hne : ∀ d ∈ ds, d.location ≠ []) (hl : ∀ d ∈ ds, ¬ d.location <+: l) :
    s.get? l ≠ none ↔ t.get? l ≠ none ∨ ∃ d ∈ ds, d.Through l := by
  induction ds generalizing t done with
  | nil =>
    obtain ⟨-, rfl⟩ := run_pure_eq_ok h
    exact (or_iff_left fun ⟨_, hd, _⟩ => List.not_mem_nil hd).symm
  | cons d ds ih =>
    obtain ⟨⟨⟩, u, rest, -, hfirst, hrest⟩ := run_each_cons_eq_ok h
    rw [List.forall_mem_cons] at hne hl
    rw [ih hrest hne.2 hl.2, ne_none_iff_of_renew hfirst hne.1,
      and_iff_left fun hpre => absurd hpre hl.1, or_assoc]
    simp only [List.mem_cons, exists_eq_or_imp]

/-- A directory is overlooked if nothing is found at it when its turn comes. -/
theorem mem_overlookedAmong_iff {done : List Unit} (h : (each renew before).run t = (.ok done, u))
    (hbefore : d ∉ before) (hafter : d ∉ after) :
    d ∈ overlookedAmong (before ++ d :: after) t ↔ u.stat d = .error .notFound := by
  induction before generalizing t done with
  | nil =>
    obtain ⟨-, rfl⟩ := run_pure_eq_ok h
    rw [List.nil_append, overlookedAmong, List.mem_append,
      or_iff_left fun hd => hafter (overlookedAmong_subset after _ hd)]
    split
    · rename_i hnothing
      exact iff_of_true (List.mem_singleton_self d) hnothing
    · rename_i hfound
      exact iff_of_false List.not_mem_nil hfound
  | cons x before ih =>
    obtain ⟨⟨⟩, v, rest, -, hfirst, hrest⟩ := run_each_cons_eq_ok h
    rw [List.mem_cons, not_or] at hbefore
    rw [List.cons_append, overlookedAmong, List.mem_append, hfirst, ih hrest hbefore.2,
      or_iff_right]
    split
    · exact fun hd => hbefore.1 (List.mem_singleton.1 hd)
    · exact List.not_mem_nil

/-- **What is there in one of several directories** that have been made anew. -/
theorem ne_none_iff_of_each_within {done : List Unit}
    (h : (each renew (before ++ d :: after)).run t = (.ok done, s))
    (hds : (before ++ d :: after).Pairwise fun p q => Apart p.location q.location)
    (hne : ∀ x ∈ before ++ d :: after, x.location ≠ []) (hl : d.location <+: l) :
    s.get? l ≠ none ↔ (∃ x ∈ d :: after, x.Through l) ∨
      d ∈ overlookedAmong (before ++ d :: after) t ∧
        (t.get? l ≠ none ∨ ∃ x ∈ before, x.Through l) := by
  obtain ⟨first, u, second, hfirst, hsecond⟩ := run_each_append_eq_ok h
  obtain ⟨⟨⟩, v, rest, -, hself, hrest⟩ := run_each_cons_eq_ok hsecond
  rw [List.forall_mem_append, List.forall_mem_cons] at hne
  obtain ⟨-, hlater, hbefore⟩ := List.pairwise_append.1 hds
  have hafter := (List.pairwise_cons.1 hlater).1
  have hothers : ∀ x ∈ before, ¬ x.location <+: l := fun x hx hpre =>
    (hbefore x hx d List.mem_cons_self).not_within hpre hl
  have hmem : d ∈ overlookedAmong (before ++ d :: after) t ↔ u.stat d = .error .notFound := by
    refine mem_overlookedAmong_iff hfirst (fun hd => ?_) fun hd => ?_
    · exact (hbefore d hd d List.mem_cons_self).1 List.prefix_rfl
    · exact (hafter d hd).1 List.prefix_rfl
  have hmade := ne_none_iff_of_renew hself hne.2.1 l
  rw [imp_iff_right hl, ne_none_iff_of_each hfirst hne.1 hothers] at hmade
  rw [ne_none_iff_of_each hrest hne.2.2 fun x hx => (hafter x hx).not_within hl, hmade, hmem]
  simp only [List.mem_cons, exists_eq_or_imp]
  rw [and_comm, or_assoc, or_comm]

/-! ### All output -/

/-- Whether no path to a directory goes up from a place of output, and nothing is where a directory
is overlooked. -/
structure Orderly (o : OutputPaths) (t : FileTree) : Prop where
  not_within : ∀ d ∈ o.directories, ∀ k, d.ClimbsFrom k → ∀ p ∈ o.places, ¬ p.location <+: k
  vacant : ∀ d ∈ o.overlooked t, t.get? d.location = none

theorem Orderly.unmixed (h : o.Orderly t) (hexclusive : o.Exclusive) : Unmixed o.directories where
  apart := hexclusive.directories
  not_within := fun d hd k hk x hx => h.not_within d hd k hk x (List.mem_append_left _ hx)
  location_ne_nil := fun _ hd => hexclusive.location_ne_nil hd

theorem Orderly.avoids_metadata (h : o.Orderly t) (hexclusive : o.Exclusive)
    (hd : d ∈ o.directories) : d.Avoids o.metadata.location :=
  ⟨(hexclusive.metadata hd).2,
    fun k hk => h.not_within d hd k hk _ (List.mem_append_right _ (List.mem_singleton_self _))⟩

/-- Paths that never go up are orderly. -/
theorem orderly_of_isPlain (hexclusive : o.Exclusive) (hplain : ∀ d ∈ o.directories, d.IsPlain)
    (h : o.clear.run t = (.ok (), s)) : o.Orderly t := by
  obtain ⟨done, u, hu, -⟩ := run_bind_eq_ok h
  have hnot : ∀ d ∈ o.directories, ∀ k, ¬ d.ClimbsFrom k := fun d hd => (hplain d hd).not_climbsFrom
  have hunmixed : Unmixed o.directories :=
    ⟨hexclusive.directories, fun d hd k hk => absurd hk (hnot d hd k),
      fun _ hd => hexclusive.location_ne_nil hd⟩
  exact ⟨fun d hd k hk => absurd hk (hnot d hd k),
    get?_of_overlooked hunmixed (fun d hd k hk => absurd hk (hnot d hd k)) hu⟩

/-- What is below a directory is listed. -/
theorem list_eq_nil (h : s.stat p = .ok .directory)
    (hempty : ∀ l, p.location <+: l → p.location ≠ l → s.get? l = none) : s.list p = [] := by
  obtain ⟨l, hl, hdir⟩ := stat_eq_ok_iff.1 h
  obtain rfl := locate_eq_ok hl
  simp only [FileTree.list, hl, if_pos hdir]
  rw [List.eq_nil_iff_forall_not_mem]
  intro e he
  obtain ⟨hne, hget⟩ := mem_below.1 he
  rw [hempty _ (List.prefix_append _ _) (by simp [hne])] at hget
  cases hget

/-- Clearing again finds nothing to remove. -/
theorem exists_clear_of_standing (hds : Unmixed o.directories) (hs : Standing o.directories s)
    (hempty : ∀ d ∈ o.directories, ∀ l, d.location <+: l → d.location ≠ l → s.get? l = none)
    (hmetadata : s.stat o.metadata = .error .notFound) :
    ∃ u, o.clear.run s = (.ok (), u) ∧ u.Agree s := by
  obtain ⟨u, done, hu, hemptied⟩ := exists_each_of_standing hds hs
  have hagree : u.Agree s := by
    intro l
    rw [hemptied l]
    split
    · rename_i hbelow
      obtain ⟨d, hd, hl, hself⟩ := hbelow
      exact (hempty d hd l hl hself).symm
    · rfl
  have hgone : u.stat o.metadata = .error .notFound := by
    rw [stat_congr (A := fun _ => True) (fun l _ => hagree l) fun _ _ => trivial, hmetadata]
  refine ⟨u, ?_, hagree⟩
  show (each renew o.directories >>= fun _ => removeAll o.metadata).run s = _
  rw [run_bind_of_eq_ok hu, run_removeAll_of_stat hgone]

/-- **What clearing leaves.** The directories are there, and in each of them is what the way to it
or to a later one leads through, and, if the directory has been overlooked, what was there or had
been made on the way to an earlier one. Nothing is at the path of the artifact. Elsewhere nothing
changes but for the directories made on the ways. By orderly paths, such as those that never go up,
all directories are found empty, and clearing again changes nothing. -/
theorem outcome_of_clear (hexclusive : o.Exclusive) (h : o.clear.run t = (.ok (), s)) :
    (∀ d ∈ o.directories, s.get? d.location = some .directory) ∧
    (∀ before d after, o.directories = before ++ d :: after →
      ∀ l, d.location <+: l → d.location ≠ l → (s.get? l ≠ none ↔
        (∃ x ∈ d :: after, x.Through l) ∨
          d ∈ o.overlooked t ∧ (t.get? l ≠ none ∨ ∃ x ∈ before, x.Through l))) ∧
    ¬ s.Holds o.metadata ∧
    (∀ l, (∀ p ∈ o.places, ¬ p.location <+: l) →
      t.KeepsAt s l (∃ d ∈ o.directories, d.Through l)) ∧
    ((∀ d ∈ o.directories, d.IsPlain) → o.Orderly t) ∧
    (o.Orderly t → (∀ d ∈ o.directories, s.stat d = .ok .directory ∧ s.list d = []) ∧
      o.hasNativeOutput s = false ∧ ∃ u, o.clear.run s = (.ok (), u) ∧ u.Agree s) := by
  obtain ⟨done, u, hu, hremove⟩ := run_bind_eq_ok h
  have hne : ∀ d ∈ o.directories, d.location ≠ [] := fun _ hd => hexclusive.location_ne_nil hd
  have hkept (l : Location) (hl : ¬ o.metadata.location <+: l) : s.get? l = u.get? l := by
    rcases removeAll_eq_ok hremove with ⟨-, rfl⟩ | ⟨-, hcleared⟩
    · rfl
    · exact hcleared.get?_apart l hl
  have hin {d : Path} (hd : d ∈ o.directories) {l : Location} (hl : d.location <+: l) :
      s.get? l = u.get? l := hkept l ((hexclusive.metadata hd).not_within hl)
  have hgone := stat_of_removeAll hremove
  refine ⟨(emptied_of_clear hexclusive h).isDirectory, ?_, ?_, ?_,
    fun hplain => orderly_of_isPlain hexclusive hplain h, ?_⟩
  · intro before d after hsplit l hl _
    have hd : d ∈ o.directories := hsplit ▸ List.mem_append_right before List.mem_cons_self
    have hdirectories := hexclusive.directories
    rw [hin hd hl, overlooked, hsplit]
    rw [hsplit] at hu hne hdirectories
    exact ne_none_iff_of_each_within hu hdirectories hne hl
  · rintro ⟨n, hn⟩
    rw [hgone] at hn
    cases hn
  · intro l hl
    have hmetadata := hl o.metadata (List.mem_append_right _ (List.mem_singleton_self _))
    rw [KeepsAt, hkept l hmetadata]
    exact keepsAt_of_each hu fun d hd => hl d (List.mem_append_left _ hd)
  · intro horderly
    have hunmixed := horderly.unmixed hexclusive
    obtain ⟨hstanding, hempty⟩ := standing_of_each hunmixed horderly.vacant hu
    have hempty' : ∀ d ∈ o.directories, ∀ l, d.location <+: l → d.location ≠ l →
        s.get? l = none := by
      intro d hd l hl hself
      rw [hin hd hl, hempty d hd l hl hself]
    have hstanding' : Standing o.directories s := by
      refine ⟨fun d hd => stat_of_through (hstanding.stat_eq d hd) fun k hk _ => ?_,
        hstanding.lastStep_eq⟩
      exact hkept k ((horderly.avoids_metadata hexclusive hd).not_within hk)
    have hlist : ∀ d ∈ o.directories, s.list d = [] := fun d hd =>
      list_eq_nil (hstanding'.stat_eq d hd) (hempty' d hd)
    refine ⟨fun d hd => ⟨hstanding'.stat_eq d hd, hlist d hd⟩, ?_,
      exists_clear_of_standing hunmixed hstanding' hempty' hgone⟩
    rw [hasNativeOutput, List.any_eq_false]
    intro d hd
    rw [hlist d hd]
    exact Bool.false_ne_true

/-! ### A file that stays -/

namespace Leftover

/-- The way to the directory for native resources goes up from one that is missing. -/
def output : OutputPaths :=
  ⟨⟨"build/cache/../native"⟩, ⟨"build/catalogs"⟩, ⟨"build/holders"⟩, ⟨"build/artifact.json"⟩⟩

/-- A file from before. -/
def tree : FileTree where
  nodes := OrderedMap.ofList [(["build"], .directory), (["build", "native"], .directory),
    (["build", "native", "old.txt"], .file ⟨#[111]⟩)]
  rooted := by decide

end Leftover

/-- The output is cleared with success, and the file is still there. -/
theorem outcome_of_clear_leftover : Leftover.output.Exclusive ∧
    ∃ s, Leftover.output.clear.run Leftover.tree = (.ok (), s) ∧
      s.get? ["build", "native", "old.txt"] ≠ none := by
  have hexclusive : Leftover.output.Exclusive := by decide
  have hok : (Leftover.output.clear.run Leftover.tree).1.isOk = true := by decide +kernel
  have hoverlooked : Leftover.output.resources ∈ Leftover.output.overlooked Leftover.tree := by
    decide +kernel
  have hrun := run_eq_of_isOk hok
  obtain ⟨-, hleft, -⟩ := outcome_of_clear hexclusive hrun
  have hfile := (hleft [] _ _ rfl ["build", "native", "old.txt"] (by decide)
    (by decide)).2 (.inr ⟨hoverlooked, .inl (by decide)⟩)
  exact ⟨hexclusive, _, hrun, hfile⟩

end OutputPaths

end ResourceCompiler
