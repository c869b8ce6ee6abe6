import ResourceCompiler.Proofs.Defaults
import ResourceCompiler.Proofs.FileTree.Clearing
import ResourceCompiler.Proofs.Metadata.Storing
import ResourceCompiler.Proofs.Native.Performing
import ResourceCompiler.Proofs.Native.Places
import ResourceCompiler.Proofs.Stages

/-!
# What a successful pass leaves

A pass that succeeds has cleared its output, written native output and a holder, and stored its
artifact. Its directories hold the files that it lists, and files from before that clearing
overlooked.

* `Configuration.Performed`, `Configuration.performed_of_run`: the effects of a successful pass.
* `Configuration.files_of_run`: the files that it leaves.
-/

namespace ResourceCompiler

open FileAction FileTree

/-! ### Distinct paths -/

namespace Native

/-- The paths that are kept: all are among the given ones, no two of them name one place, and each
of the given ones names the place of one of them. -/
theorem distinctPaths_spec (paths : List Path) :
    distinctPaths paths ⊆ paths ∧ (distinctPaths paths).Pairwise (fun p q => p.same q = false) ∧
      ∀ p ∈ paths, ∃ q ∈ distinctPaths paths, p.same q = true := by
  have hfold (paths seen : List Path) (hseen : seen.Pairwise fun p q => p.same q = false) :
      let kept := paths.foldl (fun seen p => if seen.any p.same then seen else seen ++ [p]) seen
      kept ⊆ seen ++ paths ∧ seen ⊆ kept ∧ kept.Pairwise (fun p q => p.same q = false) ∧
        ∀ p ∈ paths, ∃ q ∈ kept, p.same q = true := by
    induction paths generalizing seen with
    | nil => exact ⟨by simp, List.Subset.refl _, hseen, List.forall_mem_nil _⟩
    | cons p paths ih =>
      intro kept
      cases hany : seen.any p.same with
      | true =>
        have hkept : kept = paths.foldl
            (fun seen p => if seen.any p.same then seen else seen ++ [p]) seen := by
          show List.foldl _ _ _ = _
          rw [List.foldl_cons, hany]
          rfl
        obtain ⟨hsub, hsup, hpair, hall⟩ := ih seen hseen
        rw [← hkept] at hsub hsup hpair hall
        refine ⟨fun x hx => ?_, hsup, hpair, List.forall_mem_cons.2 ⟨?_, hall⟩⟩
        · rcases List.mem_append.1 (hsub hx) with hx | hx
          · exact List.mem_append_left _ hx
          · exact List.mem_append_right _ (List.mem_cons_of_mem p hx)
        · obtain ⟨q, hq, hsame⟩ := List.any_eq_true.1 hany
          exact ⟨q, hsup hq, hsame⟩
      | false =>
        have hkept : kept = paths.foldl
            (fun seen p => if seen.any p.same then seen else seen ++ [p]) (seen ++ [p]) := by
          show List.foldl _ _ _ = _
          rw [List.foldl_cons, hany]
          rfl
        have hnew : (seen ++ [p]).Pairwise fun p q => p.same q = false := by
          rw [List.pairwise_append]
          refine ⟨hseen, List.pairwise_singleton _ _, fun q hq x hx => ?_⟩
          rw [List.mem_singleton.1 hx, Path.same, Bool.beq_comm]
          exact Bool.eq_false_iff.2 (List.any_eq_false.1 hany q hq)
        obtain ⟨hsub, hsup, hpair, hall⟩ := ih (seen ++ [p]) hnew
        rw [← hkept] at hsub hsup hpair hall
        have hself : p ∈ kept := hsup (List.mem_append_right _ (List.mem_singleton_self p))
        refine ⟨fun x hx => ?_, fun x hx => hsup (List.mem_append_left _ hx), hpair,
          List.forall_mem_cons.2 ⟨⟨p, hself, by rw [Path.same, beq_self_eq_true]⟩, hall⟩⟩
        have hx := hsub hx
        rwa [List.append_assoc, List.singleton_append] at hx
  obtain ⟨hsub, -, hpair, hall⟩ := hfold paths [] List.Pairwise.nil
  exact ⟨hsub, hpair, hall⟩

theorem Writes.append {t u s : FileTree} {before after : List Output} (h : Writes t before u)
    (h' : Writes u after s) : Writes t (before ++ after) s := by
  induction h with
  | nil t => exact h'
  | cons gives put _ ih => exact .cons gives put (ih h')

/-- Native output and the holder are written as they are planned. -/
theorem Generators.exists_writes {g : Generators} {resources : Resources}
    {objects : List ResourceObject} {native holder : List Path} {t u s : FileTree}
    (hnative : (g.generateResources resources).run t = (.ok native, u))
    (hholder : (g.generateHolder objects).run u = (.ok holder, s)) :
    ∃ outputs holders, g.resourcePlan resources = outputs.map .ok ∧
      g.holder objects = holders.map .ok ∧ native = distinctPaths (outputs.map Output.path) ∧
      holder = holders.map Output.path ∧ Writes t outputs u ∧ Writes u holders s := by
  obtain ⟨paths, _, hpaths, hdistinct⟩ := run_bind_eq_ok hnative
  obtain ⟨rfl, rfl⟩ := run_pure_eq_ok hdistinct
  obtain ⟨outputs, hplan, rfl, hwrites⟩ := Plan.perform_eq_ok hpaths
  obtain ⟨holders, hholders, hpaths', hwrites'⟩ := Plan.perform_eq_ok hholder
  exact ⟨outputs, holders, hplan, hholders, rfl, hpaths', hwrites, hwrites'⟩

end Native

open Native

variable {c : Configuration} {outcome : Outcome} {t u s : FileTree}

namespace OutputPaths

variable {o : OutputPaths} {d d' : Path} {x y : Output}

/-- Files of output that have one location have one path. -/
theorem Exclusive.path_eq (h : o.Exclusive) (hd : d ∈ o.directories) (hd' : d' ∈ o.directories)
    (hx : x.Inside d) (hy : y.Inside d') (hloc : x.path.location = y.path.location) :
    x.path = y.path := by
  obtain ⟨names, -, hnames, hxpath⟩ := hx
  obtain ⟨names', -, hnames', hypath⟩ := hy
  rw [hxpath, hypath, Path.location_descend d hnames, Path.location_descend d' hnames'] at hloc
  obtain rfl := h.eq_of_prefix hd hd' ⟨names, rfl⟩ ⟨names', hloc.symm⟩
  rw [hxpath, hypath, List.append_cancel_left hloc]

end OutputPaths

namespace Configuration

/-! ### The stages -/

/-- The effects of a successful pass: clearing, then output for resources and holders, then the
artifact. -/
structure Performed (c : Configuration) (t u v : FileTree) (outputs holders : List Output)
    (outcome : Outcome) (s : FileTree) : Prop where
  clear_eq : c.output.clear.run t = (.ok (), u)
  writes : Writes u (outputs ++ holders) v
  stored : Store.Stored v c.output.metadata outcome.artifact.text.toUTF8 s
  written_eq : outcome.written =
    distinctPaths (outputs.map Output.path) ++ holders.map Output.path
  inside_outputs : ∀ x ∈ outputs, x.Inside c.output.resources ∨ x.Inside c.output.assets
  holders_eq : holders = [] ∨ ∃ x, holders = [x] ∧ x.Inside c.output.sources
  nothing_of_common : c.platform = .common → outputs = [] ∧ holders = []

/-- The effects of a pass that has gone through its stages, with the plans that it has carried
out. -/
theorem Course.performed (h : c.Course t outcome s) : ∃ outputs holders,
    h.generators.resourcePlan h.merged = outputs.map .ok ∧
      h.generators.holder (Container.objects (c.assemble h.linked h.merged)) = holders.map .ok ∧
      Writes h.cleared outputs h.generated ∧
      c.Performed t h.cleared h.held outputs holders outcome s := by
  have hg := h.generators_eq
  obtain ⟨outputs, holders, hplan, hholders, hnative, hholder, hwrites, hwrites'⟩ :=
    Generators.exists_writes h.native_eq h.holder_eq
  refine ⟨outputs, holders, hplan, hholders, hwrites, h.cleared_eq, hwrites.append hwrites',
    Store.stored_of_write h.stored_eq, ?_, fun x hx => ?_, ?_, fun hcommon => ?_⟩
  · rw [h.written_eq, hnative, hholder]
  · have hmem : .ok x ∈ h.generators.resourcePlan h.merged :=
      hplan ▸ List.mem_map_of_mem hx
    obtain ⟨k, -, hk⟩ := List.mem_flatMap.1 hmem
    exact Generators.inside_of_mem_resources hg hk
  · rcases Generators.holder_eq hg (Container.objects (c.assemble h.linked h.merged)) with
      hnone | ⟨x, hx, hinside⟩
    · exact .inl (List.map_eq_nil_iff.1 (hholders.symm.trans hnone))
    · obtain ⟨y, rest, rfl, hy, hrest⟩ := List.map_eq_cons_iff.1 (hholders.symm.trans hx)
      obtain rfl := Except.ok.inj hy
      obtain rfl := List.map_eq_nil_iff.1 hrest
      exact .inr ⟨y, rfl, hinside⟩
  · rw [hcommon] at hg
    rw [← Except.ok.inj hg] at hplan hholders
    exact ⟨List.map_eq_nil_iff.1 hplan.symm, List.map_eq_nil_iff.1 hholders.symm⟩

theorem performed_of_run (h : c.run.run t = (.ok outcome, s)) :
    ∃ u v outputs holders, c.Performed t u v outputs holders outcome s := by
  obtain ⟨course⟩ := exists_course_of_run h
  obtain ⟨outputs, holders, -, -, -, hperformed⟩ := course.performed
  exact ⟨_, _, outputs, holders, hperformed⟩

namespace Performed

variable {v : FileTree} {outputs holders : List Output} {d : Path} {l : Location}

theorem inside (h : c.Performed t u v outputs holders outcome s) {x : Output}
    (hx : x ∈ outputs ++ holders) : ∃ d ∈ c.output.directories, x.Inside d := by
  rcases List.mem_append.1 hx with hx | hx
  · rcases h.inside_outputs x hx with hin | hin
    · exact ⟨_, by simp [OutputPaths.directories], hin⟩
    · exact ⟨_, by simp [OutputPaths.directories], hin⟩
  · rcases h.holders_eq with hnone | ⟨y, hy, hin⟩
    · rw [hnone] at hx
      cases hx
    · rw [hy] at hx
      rw [List.mem_singleton.1 hx]
      exact ⟨_, by simp [OutputPaths.directories], hin⟩

/-- The paths that are listed lead to the files that are written. -/
theorem mem_written_iff (h : c.Performed t u v outputs holders outcome s) :
    l ∈ outcome.written.map Path.location ↔ ∃ x ∈ outputs ++ holders, x.path.location = l := by
  obtain ⟨hsub, -, hall⟩ := distinctPaths_spec (outputs.map Output.path)
  rw [h.written_eq, List.map_append, List.mem_append]
  constructor
  · rintro (hl | hl)
    · obtain ⟨p, hp, rfl⟩ := List.mem_map.1 hl
      obtain ⟨x, hx, rfl⟩ := List.mem_map.1 (hsub hp)
      exact ⟨x, List.mem_append_left _ hx, rfl⟩
    · obtain ⟨p, hp, rfl⟩ := List.mem_map.1 hl
      obtain ⟨x, hx, rfl⟩ := List.mem_map.1 hp
      exact ⟨x, List.mem_append_right _ hx, rfl⟩
  · rintro ⟨x, hx, rfl⟩
    rcases List.mem_append.1 hx with hx | hx
    · obtain ⟨q, hq, hsame⟩ := hall x.path (List.mem_map_of_mem hx)
      refine .inl (List.mem_map.2 ⟨q, hq, ?_⟩)
      rw [Path.location_eq_foldl_strides, Path.location_eq_foldl_strides,
        Path.strides_of_same hsame]
    · exact .inr (List.mem_map_of_mem (List.mem_map_of_mem hx))

/-- Holders lie apart from the directories of native output. -/
theorem not_within_of_holder (h : c.Performed t u v outputs holders outcome s)
    (hexclusive : c.output.Exclusive) {x : Output} (hx : x ∈ holders) :
    ¬ c.output.resources.location <+: x.path.location ∧
      ¬ c.output.assets.location <+: x.path.location := by
  rcases h.holders_eq with rfl | ⟨y, rfl, hin⟩
  · cases hx
  obtain rfl := List.mem_singleton.1 hx
  obtain ⟨names, -, hnames⟩ := hin.exists_location
  have hsources : c.output.sources.location <+: x.path.location := ⟨names, hnames.symm⟩
  exact ⟨fun hl => hexclusive.sources.1.not_within hl hsources,
    fun hl => hexclusive.sources.2.not_within hl hsources⟩

/-- No holder is at the place of native output. -/
theorem location_ne (h : c.Performed t u v outputs holders outcome s)
    (hexclusive : c.output.Exclusive) {x y : Output} (hx : x ∈ outputs) (hy : y ∈ holders) :
    x.path.location ≠ y.path.location := by
  intro hloc
  obtain ⟨hresources, hassets⟩ := h.not_within_of_holder hexclusive hy
  rcases h.inside_outputs x hx with hin | hin
  · obtain ⟨names, -, hnames⟩ := hin.exists_location
    exact hresources ⟨names, hnames.symm.trans hloc⟩
  · obtain ⟨names, -, hnames⟩ := hin.exists_location
    exact hassets ⟨names, hnames.symm.trans hloc⟩

/-- No place is listed twice. -/
theorem nodup_written (h : c.Performed t u v outputs holders outcome s)
    (hexclusive : c.output.Exclusive) : (outcome.written.map Path.location).Nodup := by
  obtain ⟨hsub, hpair, -⟩ := distinctPaths_spec (outputs.map Output.path)
  have hfirst : ((distinctPaths (outputs.map Output.path)).map Path.location).Nodup := by
    rw [List.Nodup, List.pairwise_map]
    refine hpair.imp_of_mem fun hp hq hdiffer hloc => ?_
    obtain ⟨x, hx, rfl⟩ := List.mem_map.1 (hsub hp)
    obtain ⟨y, hy, rfl⟩ := List.mem_map.1 (hsub hq)
    obtain ⟨d, hd, hin⟩ := h.inside (List.mem_append_left _ hx)
    obtain ⟨d', hd', hin'⟩ := h.inside (List.mem_append_left _ hy)
    rw [hexclusive.path_eq hd hd' hin hin' hloc, Path.same, beq_self_eq_true] at hdiffer
    cases hdiffer
  rw [h.written_eq, List.map_append]
  rcases h.holders_eq with rfl | ⟨x, rfl, hx⟩
  · rwa [List.map_nil, List.map_nil, List.append_nil]
  · refine List.nodup_append.2 ⟨hfirst, List.pairwise_singleton _ _, fun l hl k hk hlk => ?_⟩
    obtain ⟨p, hp, rfl⟩ := List.mem_map.1 hl
    obtain ⟨y, hy, rfl⟩ := List.mem_map.1 (hsub hp)
    rw [List.mem_singleton.1 hk] at hlk
    exact h.location_ne hexclusive hy (List.mem_singleton_self x) hlk

theorem isDirectory (h : c.Performed t u v outputs holders outcome s)
    (hexclusive : c.output.Exclusive) (hd : d ∈ c.output.directories) :
    v.get? d.location = some .directory :=
  h.writes.keeps _ ((OutputPaths.emptied_of_clear hexclusive h.clear_eq).isDirectory d hd)

/-- Neither the artifact nor the file beside its place is in one of the directories. -/
theorem ne_metadata (h : c.Performed t u v outputs holders outcome s)
    (hexclusive : c.output.Exclusive) (hd : d ∈ c.output.directories) (hl : d.location <+: l) :
    l ≠ c.output.metadata.location ∧ l ≠ (Store.temporary c.output.metadata).location := by
  have hmetadata := hexclusive.metadata hd
  refine ⟨fun heq => hmetadata.1 (heq ▸ hl), fun heq => ?_⟩
  obtain ⟨as, name, other, hplace, hbeside, hvacant⟩ := h.stored.beside
  rw [heq, Path.location_of_strides hbeside] at hl
  rcases List.prefix_concat_iff.1 hl with hself | hholder
  · rw [Path.location_of_strides hbeside, ← hself] at hvacant
    exact hvacant (h.isDirectory hexclusive hd)
  · refine hmetadata.1 (hholder.trans ?_)
    rw [Path.location_of_strides hplace]
    exact List.prefix_append _ _

/-- What is in a directory is kept when the artifact is stored. -/
theorem keepsAt (h : c.Performed t u v outputs holders outcome s)
    (hexclusive : c.output.Exclusive) (hd : d ∈ c.output.directories) (hl : d.location <+: l) :
    v.KeepsAt s l (c.output.metadata.Through l ∨
      (Store.temporary c.output.metadata).Through l) := by
  obtain ⟨hmetadata, htemporary⟩ := h.ne_metadata hexclusive hd hl
  exact h.stored.keepsAt l hmetadata htemporary

/-- A path that is listed is that of a file that is written. -/
theorem exists_output (h : c.Performed t u v outputs holders outcome s) {p : Path}
    (hp : p ∈ outcome.written) : ∃ x ∈ outputs ++ holders, x.path = p := by
  obtain ⟨hsub, -, -⟩ := distinctPaths_spec (outputs.map Output.path)
  rw [h.written_eq] at hp
  rcases List.mem_append.1 hp with hp | hp
  · obtain ⟨x, hx, rfl⟩ := List.mem_map.1 (hsub hp)
    exact ⟨x, List.mem_append_left _ hx, rfl⟩
  · obtain ⟨x, hx, rfl⟩ := List.mem_map.1 hp
    exact ⟨x, List.mem_append_right _ hx, rfl⟩

/-- A path that is listed leads to a file in one of the directories. -/
theorem isFile_of_mem (h : c.Performed t u v outputs holders outcome s)
    (hexclusive : c.output.Exclusive) {p : Path} (hp : p ∈ outcome.written) :
    s.isFile p = true ∧ ∃ d ∈ c.output.directories, d.location <+: p.location := by
  obtain ⟨x, hx, rfl⟩ := h.exists_output hp
  obtain ⟨d, hd, hin⟩ := h.inside hx
  obtain ⟨names, -, hnames⟩ := hin.exists_location
  have hl : d.location <+: x.path.location := ⟨names, hnames.symm⟩
  obtain ⟨content, hstat⟩ := h.writes.stat_of_mem hx
  have hkept := (h.keepsAt hexclusive hd hl).get?_of_some (get?_of_stat hstat)
  refine ⟨isFile_iff.2 ⟨content, read_eq_ok_iff.2 ?_⟩, d, hd, hl⟩
  exact stat_of_keeps h.stored.keeps hstat hkept

/-- Where nothing is listed, there is a file exactly if it was overlooked. -/
theorem file_iff (h : c.Performed t u v outputs holders outcome s)
    (hexclusive : c.output.Exclusive) (hd : d ∈ c.output.directories) (hl : d.location <+: l)
    (hunlisted : l ∉ outcome.written.map Path.location) (content : ByteArray) :
    s.get? l = some (.file content) ↔
      d ∈ c.output.overlooked t ∧ t.get? l = some (.file content) := by
  have hwrites := h.writes.keepsAt_of_ne fun x hx heq =>
    hunlisted (h.mem_written_iff.2 ⟨x, hx, heq.symm⟩)
  rw [(h.keepsAt hexclusive hd hl).get?_eq_file_iff, hwrites.get?_eq_file_iff]
  exact (OutputPaths.emptied_of_clear hexclusive h.clear_eq).file_iff d hd l hl content

/-- Where no path goes up, nothing is overlooked. -/
theorem file_iff_of_isPlain (h : c.Performed t u v outputs holders outcome s)
    (hexclusive : c.output.Exclusive) (hplain : ∀ p ∈ c.output.places, p.IsPlain)
    (hd : d ∈ c.output.directories) (hl : d.location <+: l) :
    (∃ content, s.get? l = some (.file content)) ↔ l ∈ outcome.written.map Path.location := by
  constructor
  · rintro ⟨content, hfile⟩
    by_contra hunlisted
    have hemptied := OutputPaths.emptied_of_clear hexclusive h.clear_eq
    have hfile' : u.get? l = some (.file content) := by
      rw [hemptied.file_iff d hd l hl content]
      exact (h.file_iff hexclusive hd hl hunlisted content).1 hfile
    by_cases hself : d.location = l
    · rw [← hself, hemptied.isDirectory d hd] at hfile'
      cases hfile'
    · have hnone := hemptied.get?_of_isPlain
        (fun p hp => hplain p (OutputPaths.mem_places_of_mem_directories hp)) d hd l hl hself
      rw [hnone] at hfile'
      cases hfile'
  · intro hlisted
    obtain ⟨p, hp, rfl⟩ := List.mem_map.1 hlisted
    obtain ⟨content, hread⟩ := isFile_iff.1 (h.isFile_of_mem hexclusive hp).1
    exact ⟨content, get?_of_stat (read_eq_ok_iff.1 hread)⟩

/-- Where no path goes up, nothing is made in a directory when the artifact is stored. -/
theorem not_through_of_isPlain (h : c.Performed t u v outputs holders outcome s)
    (hexclusive : c.output.Exclusive) (hplain : c.output.metadata.IsPlain)
    (hd : d ∈ c.output.directories) (hl : d.location <+: l) :
    ¬ (c.output.metadata.Through l ∨ (Store.temporary c.output.metadata).Through l) := by
  have hmetadata := hexclusive.metadata hd
  rintro (hway | hway)
  · exact hmetadata.1 (hl.trans (hway.prefix_of_isPlain hplain))
  · obtain ⟨as, name, other, hplace, hbeside, -⟩ := h.stored.beside
    have hplain' : (Store.temporary c.output.metadata).IsPlain := by
      rw [Path.isPlain_iff, hplace, List.mem_append, not_or] at hplain
      rw [Path.isPlain_iff, hbeside, List.mem_append, not_or]
      exact ⟨hplain.1, by simp⟩
    have hwithin := hway.prefix_of_isPlain hplain'
    rw [Path.location_of_strides hbeside] at hwithin
    rcases List.prefix_concat_iff.1 hwithin with hself | hholder
    · refine (h.ne_metadata hexclusive hd hl).2 ?_
      rw [hself, Path.location_of_strides hbeside]
    · refine hmetadata.1 ((hl.trans hholder).trans ?_)
      rw [Path.location_of_strides hplace]
      exact List.prefix_append _ _

/-- Where no path goes up, a common pass leaves its directories empty. -/
theorem list_eq_nil_of_isPlain (h : c.Performed t u v outputs holders outcome s)
    (hexclusive : c.output.Exclusive) (hplain : ∀ p ∈ c.output.places, p.IsPlain)
    (hcommon : c.platform = .common) (hd : d ∈ c.output.directories) : s.list d = [] := by
  obtain ⟨rfl, rfl⟩ := h.nothing_of_common hcommon
  have hnothing (l : Location) (hl : d.location <+: l) (hself : d.location ≠ l) :
      s.get? l = none := by
    have hnone := (OutputPaths.emptied_of_clear hexclusive h.clear_eq).get?_of_isPlain
      (fun p hp => hplain p (OutputPaths.mem_places_of_mem_directories hp)) d hd l hl hself
    have hmetadata : c.output.metadata.IsPlain := hplain _ (by simp [OutputPaths.places])
    rcases h.keepsAt hexclusive hd hl with hsame | ⟨-, -, hway⟩
    · rw [hsame]
      cases h.writes with
      | nil => exact hnone
    · exact absurd hway (h.not_through_of_isPlain hexclusive hmetadata hd hl)
  rw [list]
  split
  · rename_i l hl
    obtain rfl := locate_eq_ok hl
    split
    · rw [List.eq_nil_iff_forall_not_mem]
      intro e he
      obtain ⟨hne, hget⟩ := mem_below.1 he
      rw [hnothing _ (List.prefix_append _ _) (by simp [hne])] at hget
      cases hget
    · rfl
  · rfl

end Performed

/-- **What a successful pass leaves**, where all that it owns lies apart. It lists no place twice
and only files in its directories, and a file that it does not list was there before and overlooked
by clearing. Its artifact is in its place. Where no path goes up, its directories hold exactly the
files that it lists, and a common pass leaves them empty. -/
theorem files_of_run (hexclusive : c.output.Exclusive) (h : c.run.run t = (.ok outcome, s)) :
    (outcome.written.map Path.location).Nodup ∧
      (∀ p ∈ outcome.written, s.isFile p = true ∧
        ∃ d ∈ c.output.directories, d.location <+: p.location) ∧
      (∀ d ∈ c.output.directories, ∀ l, d.location <+: l →
        l ∉ outcome.written.map Path.location → ∀ content,
          s.get? l = some (.file content) ↔
            d ∈ c.output.overlooked t ∧ t.get? l = some (.file content)) ∧
      s.read c.output.metadata = .ok outcome.artifact.text.toUTF8 ∧
      (c.platform = .common → outcome.written = []) ∧
      ((∀ p ∈ c.output.places, p.IsPlain) →
        (∀ d ∈ c.output.directories, ∀ l, d.location <+: l →
          ((∃ content, s.get? l = some (.file content)) ↔
            l ∈ outcome.written.map Path.location)) ∧
        (c.platform = .common → ∀ d ∈ c.output.directories, s.list d = [])) := by
  obtain ⟨u, v, outputs, holders, hperformed⟩ := performed_of_run h
  refine ⟨hperformed.nodup_written hexclusive, fun p hp => hperformed.isFile_of_mem hexclusive hp,
    fun d hd l hl hunlisted => hperformed.file_iff hexclusive hd hl hunlisted,
    hperformed.stored.read_eq, fun hcommon => ?_, fun hplain => ⟨?_, ?_⟩⟩
  · obtain ⟨rfl, rfl⟩ := hperformed.nothing_of_common hcommon
    exact hperformed.written_eq
  · exact fun d hd l hl => hperformed.file_iff_of_isPlain hexclusive hplain hd hl
  · exact fun hcommon d hd => hperformed.list_eq_nil_of_isPlain hexclusive hplain hcommon hd

end Configuration

/-! ### A file that is overlooked -/

namespace Overlooked

/-- The way to the directory for native resources goes through one that is missing. -/
def config : Configuration :=
  .ofDefaults ⟨⟨"desktopMain", by decide⟩, ⟨"desktop"⟩⟩ ⟨"overlooked", by decide⟩
    ⟨⟨"out/tmp/../res"⟩, ⟨"out/assets"⟩, ⟨"out/src"⟩, ⟨"out/metadata.json"⟩⟩

/-- A file from before. -/
def tree : FileTree where
  nodes := OrderedMap.ofList [(["out"], .directory), (["out", "res"], .directory),
    (["out", "res", "stale.txt"], .file ⟨#[111]⟩)]
  rooted := by decide +kernel

end Overlooked

/-- The file is left, though the pass lists none. -/
theorem files_of_run_overlooked :
    ∃ outcome s, Overlooked.config.run.run Overlooked.tree = (.ok outcome, s) ∧
      outcome.written = [] ∧ s.get? ["out", "res", "stale.txt"] = some (.file ⟨#[111]⟩) := by
  have hok : (Overlooked.config.run.run Overlooked.tree).1.isOk = true := by decide +kernel
  have hexclusive : Overlooked.config.output.Exclusive := by decide +kernel
  obtain ⟨outcome, s, hrun⟩ :
      ∃ outcome s, Overlooked.config.run.run Overlooked.tree = (.ok outcome, s) := by
    cases hrun : Overlooked.config.run.run Overlooked.tree with
    | mk r s =>
      rw [hrun] at hok
      cases r with
      | ok outcome => exact ⟨outcome, s, rfl⟩
      | error failure => cases hok
  obtain ⟨-, -, hfile, -, hcommon, -⟩ := Configuration.files_of_run hexclusive hrun
  have hnone : outcome.written = [] := hcommon rfl
  have hresources : Overlooked.config.output.resources ∈ Overlooked.config.output.directories :=
    List.mem_cons_self
  have hoverlooked : Overlooked.config.output.resources ∈
      Overlooked.config.output.overlooked Overlooked.tree := by decide +kernel
  have hleft := hfile _ hresources ["out", "res", "stale.txt"] (by decide +kernel)
    (by rw [hnone]; exact List.not_mem_nil) ⟨#[111]⟩
  exact ⟨outcome, s, hrun, hnone, hleft.2 ⟨hoverlooked, by decide +kernel⟩⟩

end ResourceCompiler
