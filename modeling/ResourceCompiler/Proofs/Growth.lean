import ResourceCompiler.Proofs.FileTree.Renewal
import ResourceCompiler.Proofs.Metadata.Restoring
import ResourceCompiler.Proofs.SuccessfulPass

/-!
# What a pass leaves beside its output

A pass that succeeds leaves everything outside its output as it is, but for the file beside its
artifact, which is gone, and for the directories that hold its artifact, which are made. When the
output is cleared again, the tree is the one that the pass has worked on, with no more than these
directories.

* `OutputPaths.Owns`, `OutputPaths.Touches`, `OutputPaths.Steady`: the locations that a pass makes
  or removes, and paths that do not go up from there.
* `Configuration.Repeatable`: configurations whose paths lead to the same places again.
* `FileTree.Grown`: a tree with the directories that hold an artifact made.
* `Configuration.Course.exists_clear_again`: the output cleared again.
-/

namespace ResourceCompiler

open FileTree Native

namespace Path

variable {p : Path} {l : Location}

/-- Names behind a path lead on from where it ends. -/
theorem Through.of_descend {names : List String} (hnames : ∀ s ∈ names, IsName s)
    (h : (p.descend names).Through l) : p.Through l ∨ p.location <+: l := by
  obtain ⟨as, has, hl⟩ := h
  rw [strides_descend p hnames] at has
  rcases List.prefix_or_prefix_of_prefix has (List.prefix_append p.strides _) with
    hfirst | ⟨bs, rfl⟩
  · exact .inl ⟨as, hfirst, hl⟩
  · have hbs : bs <+: names.map Step.down := (List.prefix_append_right_inj _).1 has
    refine .inr ?_
    rw [← hl, List.foldl_append, ← location_eq_foldl_strides]
    refine prefix_foldl_from (fun hup => ?_) _
    obtain ⟨name, -, hname⟩ := List.mem_map.1 (hbs.subset hup)
    cases hname

end Path

namespace OutputPaths

variable {o : OutputPaths} {t u v : FileTree} {outputs : List Output} {l : Location}

/-- Whether a location is at or in a place that a pass owns, or is that of the file beside its
artifact. -/
def Owns (o : OutputPaths) (l : Location) : Prop :=
  (∃ p ∈ o.places, p.location <+: l) ∨ l = (Store.temporary o.metadata).location

instance (o : OutputPaths) (l : Location) : Decidable (o.Owns l) :=
  inferInstanceAs (Decidable (_ ∨ _))

/-- Whether a pass may make or remove what is at a location. -/
def Touches (o : OutputPaths) (t : FileTree) (l : Location) : Prop :=
  o.Owns l ∨ t.get? l = none ∧ ∃ p ∈ o.places, p.Through l

/-- Whether a path goes up only from directories that a pass leaves alone, with all that hold
them. -/
def Steady (o : OutputPaths) (t : FileTree) (p : Path) : Prop :=
  ∀ k, p.ClimbsFrom k → ∀ l, l <+: k → ¬ o.Touches t l

theorem steady_of_isPlain {p : Path} (h : p.IsPlain) (o : OutputPaths) (t : FileTree) :
    o.Steady t p := fun k hk => absurd hk (h.not_climbsFrom k)

theorem renewable_of_steady (hexclusive : o.Exclusive) (h : ∀ p ∈ o.places, o.Steady t p) :
    o.Renewable t where
  exclusive := hexclusive
  not_within := fun p hp k hk q hq hprefix =>
    h p hp k hk q.location hprefix (.inl (.inl ⟨q, hq, List.prefix_rfl⟩))
  there := fun p hp k hk l hl hway hmissing =>
    h p hp k hk l hl (.inr ⟨hmissing, p, hp, hway⟩)

/-- Output leaves alone what is outside of the directories it goes to. -/
theorem get?_of_writes (h : Writes u outputs v)
    (hinside : ∀ x ∈ outputs, ∃ d ∈ o.directories, x.Inside d)
    (hstat : ∀ d ∈ o.directories, u.stat d = .ok .directory)
    (hl : ∀ d ∈ o.directories, ¬ d.location <+: l) : v.get? l = u.get? l := by
  have hpath : ∀ x ∈ outputs, l ≠ x.path.location := by
    rintro x hx rfl
    obtain ⟨d, hd, hin⟩ := hinside x hx
    obtain ⟨names, -, hnames⟩ := hin.exists_location
    exact hl d hd ⟨names, hnames.symm⟩
  rcases h.keepsAt_of_ne hpath with hsame | ⟨hnone, -, x, hx, hway⟩
  · exact hsame
  · obtain ⟨d, hd, names, -, hnames, hdescend⟩ := hinside x hx
    rw [hdescend] at hway
    rcases hway.of_descend hnames with hway | hbelow
    · rcases get?_of_through (hstat d hd) hway with hdir | ⟨-, hdir⟩
      · rw [hnone] at hdir
        cases hdir
      · rw [hnone] at hdir
        cases hdir
    · exact absurd hbelow (hl d hd)

end OutputPaths

/-- The tree with the directories that hold an artifact made, whatever is beside the artifact. -/
structure FileTree.Grown (o : OutputPaths) (u u' : FileTree) : Prop where
  get?_of_ne : ∀ l, l ≠ (Store.temporary o.metadata).location → u'.get? l = u.get? l ∨
    u.get? l = none ∧ u'.get? l = some .directory ∧ o.metadata.Leaves l
  get?_within : ∀ d ∈ o.directories, ∀ l, d.location <+: l → u'.get? l = u.get? l
  get?_leaves : ∀ l, o.metadata.Leaves l → u'.get? l = some .directory
  before : u.get? (Store.temporary o.metadata).location ≠ some .directory
  after : u'.get? (Store.temporary o.metadata).location ≠ some .directory

namespace FileTree.Grown

variable {o : OutputPaths} {u u' : FileTree} {l : Location} {p : Path}

theorem get?_of_some (h : Grown o u u') {n : Node} (hl : u.get? l = some n)
    (hne : l ≠ (Store.temporary o.metadata).location) : u'.get? l = some n := by
  rcases h.get?_of_ne l hne with hsame | ⟨hnone, -, -⟩
  · rw [hsame, hl]
  · rw [hl] at hnone
    cases hnone

theorem keeps (h : Grown o u u') : u.KeepsDirectories u' := by
  intro l hl
  refine h.get?_of_some hl fun heq => h.before ?_
  rw [← heq, hl]

/-- A path leads to what it led to before, unless this is beside the artifact. -/
theorem stat_of_stat (h : Grown o u u') {n : Node} (hp : u.stat p = .ok n)
    (hne : p.location ≠ (Store.temporary o.metadata).location) : u'.stat p = .ok n :=
  stat_of_keeps h.keeps hp (h.get?_of_some (get?_of_stat hp) hne)

end FileTree.Grown

/-- Whether a pass finds its way again after it has succeeded: its output lies apart from what it
links, and no way to output, resources or linked artifacts goes up from what it makes or removes. -/
structure Configuration.Repeatable (c : Configuration) (t : FileTree) : Prop where
  exclusive : c.output.Exclusive
  steady_output : ∀ p ∈ c.output.places, c.output.Steady t p
  steady_root : ∀ s ∈ c.byPrecedence, c.output.Steady t s.root
  steady_linked : ∀ p ∈ c.inputMetadata, c.output.Steady t p
  /-- No linked artifact is among the output. -/
  linked_apart : ∀ p ∈ c.inputMetadata, ¬ c.output.Owns p.location
  /-- Directories that are made for the artifact below the root of a source set can be gone
  through. -/
  listable : ∀ s ∈ c.byPrecedence, ∀ l, l ≠ [] → c.output.metadata.Leaves (s.root.location ++ l) →
    t.get? (s.root.location ++ l) = none → (Source.pathBelow s l).check = .ok ()

/-- A pass whose paths never go up finds its way again, if all that holds its artifact below the
root of a source set can be gone through. -/
theorem Configuration.repeatable_of_isPlain {c : Configuration} (hexclusive : c.output.Exclusive)
    (houtput : ∀ p ∈ c.output.places, p.IsPlain) (hroot : ∀ s ∈ c.byPrecedence, s.root.IsPlain)
    (hlinked : ∀ p ∈ c.inputMetadata, p.IsPlain ∧ ¬ c.output.Owns p.location)
    (hlistable : ∀ s ∈ c.byPrecedence, ∀ l, s.root.location ++ l <+: c.output.metadata.location →
      (Source.pathBelow s l).check = .ok ()) (t : FileTree) : c.Repeatable t where
  exclusive := hexclusive
  steady_output := fun p hp => OutputPaths.steady_of_isPlain (houtput p hp) _ t
  steady_root := fun s hs => OutputPaths.steady_of_isPlain (hroot s hs) _ t
  steady_linked := fun p hp => OutputPaths.steady_of_isPlain (hlinked p hp).1 _ t
  linked_apart := fun p hp => (hlinked p hp).2
  listable := by
    intro s hs l _ hl _
    rcases hl.above_or_climbs with ⟨names, hnames, -⟩ | ⟨k, hk, -⟩
    · exact hlistable s hs l ⟨names, hnames.symm⟩
    · have hmetadata := houtput _ c.output.metadata_mem_places
      exact absurd hk (hmetadata.not_climbsFrom k)

namespace Configuration.Course

variable {c : Configuration} {outcome : Outcome} {s t : FileTree} {l : Location}

theorem renewable (hc : c.Repeatable t) : c.output.Renewable t :=
  OutputPaths.renewable_of_steady hc.exclusive hc.steady_output

theorem readied (h : c.Course t outcome s) (hc : c.Repeatable t) :
    c.output.Readied t h.cleared := OutputPaths.readied_of_clear (renewable hc) h.cleared_eq

/-- Outside the directories the tree is the cleared one until the artifact is stored. -/
theorem get?_held (h : c.Course t outcome s) (hc : c.Repeatable t)
    (hl : ∀ d ∈ c.output.directories, ¬ d.location <+: l) : h.held.get? l = h.cleared.get? l := by
  obtain ⟨outputs, holders, -, -, -, hperformed⟩ := h.performed
  exact OutputPaths.get?_of_writes hperformed.writes (fun x hx => hperformed.inside hx)
    (h.readied hc).standing.stat_eq hl

/-- The directories stand until the end. -/
theorem standing (h : c.Course t outcome s) (hc : c.Repeatable t) :
    OutputPaths.Standing c.output.directories s := by
  obtain ⟨outputs, holders, -, -, -, hperformed⟩ := h.performed
  have hready := h.readied hc
  have hkeeps : h.cleared.KeepsDirectories s :=
    hperformed.writes.keeps.trans hperformed.stored.keeps
  refine ⟨fun d hd => ?_, hready.standing.lastStep_eq⟩
  exact stat_directory_of_keeps hkeeps (hready.standing.stat_eq d hd)

/-- The file beside the artifact is in none of the directories. -/
theorem temporary_apart (h : c.Course t outcome s) (hc : c.Repeatable t) {d : Path}
    (hd : d ∈ c.output.directories) :
    ¬ d.location <+: (Store.temporary c.output.metadata).location := by
  obtain ⟨outputs, holders, -, -, -, hperformed⟩ := h.performed
  intro hbelow
  exact (hperformed.ne_metadata hc.exclusive hd hbelow).2 rfl

/-- No directory is beside the artifact when the output is cleared. -/
theorem temporary_vacant (h : c.Course t outcome s) (hc : c.Repeatable t) :
    h.cleared.get? (Store.temporary c.output.metadata).location ≠ some .directory := by
  rw [← h.get?_held hc fun d hd => h.temporary_apart hc hd]
  exact (Store.settled_of_write h.stored_eq).before

/-- Nothing is at the place of the artifact when the output is cleared. -/
theorem get?_of_metadata (h : c.Course t outcome s) (hc : c.Repeatable t)
    (hl : c.output.metadata.location <+: l) : h.cleared.get? l = none := by
  obtain ⟨outputs, holders, -, -, -, hperformed⟩ := h.performed
  rcases (h.readied hc).get?_metadata l hl with hnone | ⟨rfl, hdir⟩
  · exact hnone
  · -- the artifact is stored where no directory is
    have hkept := hperformed.stored.keeps _ (hperformed.writes.keeps _ hdir)
    have hfile := get?_of_stat (read_eq_ok_iff.1 hperformed.stored.read_eq)
    rw [hkept] at hfile
    cases hfile

/-- What is there after a pass, outside its output. -/
theorem get?_after (h : c.Course t outcome s) (hc : c.Repeatable t)
    (hl : ∀ d ∈ c.output.directories, ¬ d.location <+: l)
    (hmetadata : l ≠ c.output.metadata.location)
    (hbeside : l ≠ (Store.temporary c.output.metadata).location) :
    h.cleared.KeepsAt s l (c.output.metadata.Leaves l) := by
  rw [KeepsAt, ← h.get?_held hc hl]
  exact (Store.settled_of_write h.stored_eq).keepsAt l hmetadata hbeside

/-- **The output cleared again.** The tree is the one that the pass has worked on, with the
directories that hold the artifact. -/
theorem exists_clear_again (h : c.Course t outcome s) (hc : c.Repeatable t) :
    ∃ u', c.output.clear.run s = (.ok (), u') ∧ Grown c.output h.cleared u' := by
  obtain ⟨outputs, holders, -, -, -, hperformed⟩ := h.performed
  have hready := h.readied hc
  have hrenewable := renewable hc
  have hsettled := Store.settled_of_write h.stored_eq
  obtain ⟨u', hclear, hvacated⟩ :=
    OutputPaths.exists_clear hrenewable (h.standing hc) hperformed.stored.read_eq
  -- where something is owned, it is what clearing leaves both times
  have hin : ∀ d ∈ c.output.directories, ∀ l, d.location <+: l →
      u'.get? l = h.cleared.get? l := by
    intro d hd l hl
    by_cases hself : d.location = l
    · subst hself
      rw [hvacated.get?_directory hc.exclusive hd, get?_of_stat ((h.standing hc).stat_eq d hd),
        get?_of_stat (hready.standing.stat_eq d hd)]
    · rw [hvacated.get?_below hd hl hself, hready.get?_below d hd l hl hself]
  have hartifact (l : Location) (hl : c.output.metadata.location <+: l) :
      u'.get? l = h.cleared.get? l := by
    rw [hvacated.get?_metadata hl, h.get?_of_metadata hc hl]
  refine ⟨u', hclear, fun l hne => ?_, hin, fun k hk => ?_, h.temporary_vacant hc, ?_⟩
  · by_cases hdirs : ∃ d ∈ c.output.directories, d.location <+: l
    · obtain ⟨d, hd, hpre⟩ := hdirs
      exact .inl (hin d hd l hpre)
    · simp only [not_exists, not_and] at hdirs
      by_cases hmetadata : c.output.metadata.location <+: l
      · exact .inl (hartifact l hmetadata)
      · have hself : l ≠ c.output.metadata.location := fun heq => hmetadata (heq ▸ List.prefix_rfl)
        have hkeeps := h.get?_after hc hdirs hself hne
        rwa [KeepsAt, ← hvacated.get?_outside hdirs hmetadata] at hkeeps
  · have hapart := hrenewable.not_within_of_leaves hk
    rw [hvacated.get?_outside (fun d hd => hapart d (OutputPaths.mem_places_of_mem_directories hd))
      (hapart _ c.output.metadata_mem_places)]
    exact hsettled.get?_leaves k hk
  · by_cases hmetadata : c.output.metadata.location <+: (Store.temporary c.output.metadata).location
    · rw [hartifact _ hmetadata]
      exact h.temporary_vacant hc
    · rw [hvacated.get?_outside (fun d hd => h.temporary_apart hc hd) hmetadata]
      exact hsettled.after

end Configuration.Course

end ResourceCompiler
