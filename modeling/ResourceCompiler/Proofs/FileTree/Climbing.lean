import ResourceCompiler.Proofs.FileTree.Ways

/-!
# Paths that go up again

A path that goes up leads through locations that do not hold its end. Where it goes up is all that
there is to say about these: whatever else is on its way holds the end of the path, or holds a
location that the path goes up from.

* `Path.Leaves`, `Path.ClimbsFrom`: the locations that a path goes on from, and goes up from.
* `Path.Through.prefix_or_climbs`: what is on the way of a path.
* `Path.Avoids`, `Path.IsDirect`: paths that keep out of a location, and of their own end.
* `FileTree.locate_of_through`, `FileTree.stat_of_through`: paths in two trees that have the same on
  their ways.
-/

namespace ResourceCompiler

namespace Path

variable {p q : Path} {l k : Location}

/-! ### Where a path goes up -/

/-- Whether a path goes on from a location. -/
def Leaves (p : Path) (l : Location) : Prop :=
  ∃ as a bs, p.strides = as ++ a :: bs ∧ as.foldl Step.from [] = l

/-- Whether a path goes up from a location. -/
def ClimbsFrom (p : Path) (l : Location) : Prop :=
  ∃ as bs, p.strides = as ++ .up :: bs ∧ as.foldl Step.from [] = l

theorem Leaves.through (h : p.Leaves l) : p.Through l := by
  obtain ⟨as, a, bs, hstrides, hl⟩ := h
  exact ⟨as, ⟨a :: bs, hstrides.symm⟩, hl⟩

/-- A path leads through what it goes on from, and to its end. -/
theorem Through.leaves_or_eq (h : p.Through l) : p.Leaves l ∨ l = p.location := by
  obtain ⟨as, ⟨bs, hbs⟩, hl⟩ := h
  cases bs with
  | nil =>
    rw [List.append_nil] at hbs
    rw [location_eq_foldl_strides, ← hbs]
    exact .inr hl.symm
  | cons a bs => exact .inl ⟨as, a, bs, hbs.symm, hl⟩

theorem IsPlain.not_climbsFrom (h : p.IsPlain) (l : Location) : ¬ p.ClimbsFrom l := by
  rintro ⟨as, bs, hstrides, -⟩
  refine isPlain_iff.1 h ?_
  rw [hstrides]
  exact List.mem_append_right as List.mem_cons_self

theorem stay_not_mem_strides (p : Path) : .stay ∉ p.strides := by
  rw [strides, stridesOf, List.mem_filter]
  simp

/-- Steps that only go down lead to a location behind the one that they start from. -/
theorem exists_foldl_from_eq {as : List Step} (hstay : .stay ∉ as) (hup : .up ∉ as)
    (l : Location) : ∃ names, as.foldl Step.from l = l ++ names ∧ (as ≠ [] → names ≠ []) := by
  obtain ⟨names, rfl⟩ := exists_eq_map_down hstay hup
  exact ⟨names, foldl_from_map_down names l, fun hne hnil => hne (by rw [hnil]; rfl)⟩

/-- **What a path goes on from** is above its end, unless the path goes up from there or from
further down. -/
theorem Leaves.above_or_climbs (h : p.Leaves l) :
    (∃ names, p.location = l ++ names ∧ names ≠ []) ∨ ∃ k, p.ClimbsFrom k ∧ l <+: k := by
  obtain ⟨as, a, bs, hstrides, hl⟩ := h
  by_cases hup : Step.up ∈ a :: bs
  · -- the first step up is behind steps that go down
    obtain ⟨before, after, hsplit, hfirst⟩ := List.eq_append_cons_of_mem hup
    refine .inr ⟨before.foldl Step.from l, ⟨as ++ before, after, ?_, ?_⟩, ?_⟩
    · rw [hstrides, hsplit, List.append_assoc]
    · rw [List.foldl_append, hl]
    · exact prefix_foldl_from hfirst l
  · have hstay : Step.stay ∉ a :: bs := by
      intro hmem
      refine p.stay_not_mem_strides ?_
      rw [hstrides]
      exact List.mem_append_right as hmem
    obtain ⟨names, hnames, hne⟩ := exists_foldl_from_eq hstay hup l
    refine .inl ⟨names, ?_, hne (List.cons_ne_nil a bs)⟩
    rw [location_eq_foldl_strides, hstrides, List.foldl_append, hl, hnames]

/-- **What is on the way of a path** holds its end, or a location that the path goes up from. -/
theorem Through.prefix_or_climbs (h : p.Through l) :
    l <+: p.location ∨ ∃ k, p.ClimbsFrom k ∧ l <+: k := by
  rcases h.leaves_or_eq with hleaves | rfl
  · refine hleaves.above_or_climbs.imp ?_ id
    rintro ⟨names, hnames, -⟩
    exact ⟨names, hnames.symm⟩
  · exact .inl List.prefix_rfl

/-- Whether a path keeps out of a location, and of what is below it. -/
def Avoids (p : Path) (l : Location) : Prop :=
  ¬ l <+: p.location ∧ ∀ k, p.ClimbsFrom k → ¬ l <+: k

theorem Avoids.not_within (h : p.Avoids l) (hk : p.Through k) : ¬ l <+: k := by
  intro hl
  rcases hk.prefix_or_climbs with hend | ⟨m, hm, hkm⟩
  · exact h.1 (hl.trans hend)
  · exact h.2 m hm (hl.trans hkm)

/-- Whether a path gets to where it ends by its last step only, and never below. -/
def IsDirect (p : Path) : Prop := ∀ k, p.ClimbsFrom k → ¬ p.location <+: k

theorem IsDirect.not_within (h : p.IsDirect) (hk : p.Leaves k) : ¬ p.location <+: k := by
  intro hl
  rcases hk.above_or_climbs with ⟨names, hnames, hne⟩ | ⟨m, hm, hkm⟩
  · have hself := hnames ▸ hl.length_le
    rw [List.length_append] at hself
    exact hne (List.eq_nil_of_length_eq_zero (by omega))
  · exact h m hm (hl.trans hkm)

theorem IsDirect.eq_location (h : p.IsDirect) (hk : p.Through k) (hl : p.location <+: k) :
    k = p.location :=
  hk.leaves_or_eq.resolve_left fun hleaves => h.not_within hleaves hl

/-- The way of the parent is what a path goes on from. -/
theorem leaves_of_parent? (hq : p.parent? = some q) (hne : p.strides ≠ []) (h : q.Through l) :
    p.Leaves l := by
  obtain ⟨as, ⟨bs, hbs⟩, hl⟩ := h
  rw [strides_of_parent? hq] at hbs
  have hlast := List.dropLast_concat_getLast hne
  rw [← hbs, List.append_assoc] at hlast
  cases bs with
  | nil => exact ⟨as, _, [], hlast.symm, hl⟩
  | cons b bs => exact ⟨as, b, _, hlast.symm, hl⟩

/-! ### Steps along a path -/

/-- The steps before one that goes down lead through what the path goes on from. -/
theorem leaves_of_firstSteps {name : String} (hlast : p.lastStep = .down name)
    {as bs : List Step} (h : p.firstSteps = as ++ bs) : p.Leaves (as.foldl Step.from []) := by
  obtain ⟨n, hn⟩ := p.steps_eq
  have hstrides : p.strides = p.steps.filter (· ≠ .stay) := rfl
  rw [hn, h, hlast, List.append_assoc, List.filter_append] at hstrides
  have hrest : (bs ++ Step.down name :: List.replicate n .stay).filter (· ≠ .stay) ≠ [] := by
    have hmem : Step.down name ∈
        (bs ++ Step.down name :: List.replicate n .stay).filter (· ≠ .stay) :=
      List.mem_filter.2 ⟨List.mem_append_right bs List.mem_cons_self, by simp⟩
    exact List.ne_nil_of_mem hmem
  obtain ⟨b, cs, hcs⟩ := List.exists_cons_of_ne_nil hrest
  rw [hcs] at hstrides
  exact ⟨_, b, cs, hstrides, foldl_from_filter as []⟩

end Path

namespace FileTree

variable {s t : FileTree} {l k m : Location} {p : Path}

/-! ### Walks -/

/-- A walk arrives exactly if each of its steps starts from a directory and asks for no name that is
too long. -/
theorem walk_eq_ok_iff {steps : List Path.Step} :
    t.walk l steps = .ok m ↔
      (∀ as a bs, steps = as ++ a :: bs →
        t.get? (as.foldl Path.Step.from l) = some .directory ∧ a.isTooLong = false) ∧
      steps.foldl Path.Step.from l = m := by
  induction steps generalizing l with
  | nil =>
    rw [walk, Except.ok.injEq]
    refine ⟨fun h => ⟨fun as a bs heq => ?_, h⟩, fun h => h.2⟩
    exact absurd heq.symm (List.append_ne_nil_of_right_ne_nil as (List.cons_ne_nil a bs))
  | cons b rest ih =>
    constructor
    · intro h
      obtain ⟨hdir, hlong, hrest⟩ := walk_cons_eq_ok h
      obtain ⟨hsteps, hend⟩ := ih.1 hrest
      refine ⟨fun as a bs heq => ?_, hend⟩
      cases as with
      | nil =>
        obtain ⟨rfl, rfl⟩ := List.cons.inj heq
        exact ⟨hdir, hlong⟩
      | cons x as =>
        obtain ⟨rfl, rfl⟩ := List.cons.inj heq
        exact hsteps as a bs rfl
    · rintro ⟨hsteps, hend⟩
      obtain ⟨hdir, hlong⟩ := hsteps [] b rest rfl
      have hrest : t.walk (b.from l) rest = .ok m := by
        refine ih.2 ⟨fun as a bs heq => hsteps (b :: as) a bs ?_, hend⟩
        rw [heq, List.cons_append]
      rw [← List.singleton_append, walk_append]
      show (t.walk l [b]).bind _ = _
      rw [walk_singleton (l := l) hdir hlong]
      exact hrest

/-! ### What is on the way -/

/-- A path that leads somewhere leaves only directories. -/
theorem get?_of_leaves (h : t.locate p = .ok l) (hk : p.Leaves k) :
    t.get? k = some .directory := by
  have hcheck := check_of_locate h
  rw [locate_eq_walk hcheck] at h
  obtain ⟨as, a, bs, hstrides, rfl⟩ := hk
  obtain ⟨before, after, hbefore, hbeforeFilter, hafter⟩ :
      ∃ before after, p.steps = before ++ a :: after ∧
        before.filter (· ≠ .stay) = as ∧ after.filter (· ≠ .stay) = bs := by
    have hfilter : p.steps.filter (· ≠ .stay) = as ++ a :: bs := hstrides
    obtain ⟨before, rest, hsteps, hbefore, hrest⟩ := List.filter_eq_append_iff.1 hfilter
    obtain ⟨stays, after, rfl, hstays, -, hafter⟩ := List.filter_eq_cons_iff.1 hrest
    refine ⟨before ++ stays, after, by rw [hsteps, List.append_assoc], ?_, hafter⟩
    rw [List.filter_append, hbefore, List.filter_eq_nil_iff.2 hstays, List.append_nil]
  rw [← hbeforeFilter, Path.foldl_from_filter]
  exact ((walk_eq_ok_iff.1 h).1 before a after hbefore).1

theorem get?_of_through {n : Node} (h : t.stat p = .ok n) (hk : p.Through k) :
    t.get? k = some .directory ∨ k = p.location ∧ t.get? k = some n := by
  obtain ⟨l, hl, hn⟩ := stat_eq_ok_iff.1 h
  obtain rfl := locate_eq_ok hl
  rcases hk.leaves_or_eq with hleaves | rfl
  · exact .inl (get?_of_leaves hl hleaves)
  · exact .inr ⟨rfl, hn⟩

/-- A path leads to the same location where the directories on its way are kept. -/
theorem locate_of_through (h : t.locate p = .ok l)
    (hkeeps : ∀ k, p.Through k → t.get? k = some .directory → s.get? k = some .directory) :
    s.locate p = .ok l := by
  have hcheck := check_of_locate h
  rw [locate_eq_walk hcheck, walk_eq_ok_iff] at h ⊢
  refine ⟨fun as a bs heq => ?_, h.2⟩
  obtain ⟨hdir, hlong⟩ := h.1 as a bs heq
  exact ⟨hkeeps _ (Path.through_of_steps heq) hdir, hlong⟩

/-- A path leads to the same node where what is on its way is kept. -/
theorem stat_of_through {n : Node} (h : t.stat p = .ok n)
    (hkeeps : ∀ k, p.Through k → t.get? k ≠ none → s.get? k = t.get? k) : s.stat p = .ok n := by
  obtain ⟨l, hl, hn⟩ := stat_eq_ok_iff.1 h
  obtain rfl := locate_eq_ok hl
  have hlocate : s.locate p = .ok p.location := by
    refine locate_of_through hl fun k hk hdir => ?_
    rw [hkeeps k hk (by rw [hdir]; exact Option.some_ne_none _), hdir]
  refine stat_eq_ok_iff.2 ⟨_, hlocate, ?_⟩
  rw [hkeeps _ p.through_location (by rw [hn]; exact Option.some_ne_none n), hn]

/-- The directory that a last step down starts from is found where the directories that the path
leaves are kept. -/
theorem locateHolder_of_leaves {name : String} (hlast : p.lastStep = .down name)
    (h : t.locateHolder p = .ok m)
    (hkeeps : ∀ k, p.Leaves k → t.get? k = some .directory → s.get? k = some .directory) :
    s.locateHolder p = .ok m := by
  obtain ⟨hcheck, hwalk, hdir⟩ := locateHolder_eq_ok h
  obtain ⟨hsteps, hend⟩ := walk_eq_ok_iff.1 hwalk
  have hleaves {as bs : List Path.Step} (heq : p.firstSteps = as ++ bs) :
      p.Leaves (as.foldl Path.Step.from []) := Path.leaves_of_firstSteps hlast heq
  have harrive : s.walk [] p.firstSteps = .ok m := by
    refine walk_eq_ok_iff.2 ⟨fun as a bs heq => ?_, hend⟩
    obtain ⟨hdir, hlong⟩ := hsteps as a bs heq
    exact ⟨hkeeps _ (hleaves heq) hdir, hlong⟩
  have hholder : s.get? m = some .directory := by
    refine hkeeps m ?_ hdir
    rw [← hend]
    exact hleaves (List.append_nil _).symm
  rw [locateHolder_eq_walk hcheck, walk_append, harrive]
  exact walk_singleton hholder rfl

end FileTree

end ResourceCompiler
