import Mathlib.Data.List.Induction
import ResourceCompiler.Proofs.FileTree.Walking

/-!
# The way of a path

A path leads through every location that its first steps arrive at. What lies on its way are
directories, wherever the path leads somewhere, and no part of the way is left when the path gets
shorter by a component.

* `Path.strides`, `Path.strides_of_parent?`: the steps that move, and those of the parent.
* `Path.Through`: the way of a path.
* `FileTree.exists_missing_of_stat`: what a path misses that leads to nothing.
* `Path.IsPlain`, `FileTree.get?_location_of_stat`: paths that never go up find what is where they
  lead.
* `FileTree.KeepsDirectories`, `FileTree.stat_of_keeps`: paths in a tree with more directories.
-/

namespace ResourceCompiler

namespace Path

/-! ### Steps that move -/

/-- The steps that segments ask for, without those that stay. -/
def stridesOf (segments : List (List Char)) : List Step :=
  (segments.map Step.ofSegment).filter (· ≠ .stay)

/-- The steps along a path, without those that stay. -/
def strides (p : Path) : List Step := stridesOf p.segments

@[simp] theorem stridesOf_nil : stridesOf [] = [] := rfl

theorem stridesOf_append (as bs : List (List Char)) :
    stridesOf (as ++ bs) = stridesOf as ++ stridesOf bs := by
  simp [stridesOf]

theorem ofSegment_eq_stay_iff {segment : List Char} :
    Step.ofSegment segment = .stay ↔ isIdle segment = true := by
  rw [Step.ofSegment, isIdle, Bool.or_eq_true, beq_iff_eq, beq_iff_eq]
  constructor
  · intro h
    split at h
    · assumption
    · split at h <;> cases h
  · intro h
    rw [if_pos h]

theorem stridesOf_singleton {segment : List Char} (h : isIdle segment = false) :
    stridesOf [segment] = [Step.ofSegment segment] := by
  have hmoves : Step.ofSegment segment ≠ .stay := by
    rw [Ne, ofSegment_eq_stay_iff, h]
    decide
  simp [stridesOf, hmoves]

theorem stridesOf_of_idle {segments : List (List Char)} (h : ∀ x ∈ segments, isIdle x = true) :
    stridesOf segments = [] := by
  rw [stridesOf, List.filter_eq_nil_iff]
  intro a ha
  obtain ⟨x, hx, rfl⟩ := List.mem_map.1 ha
  simp [ofSegment_eq_stay_iff.2 (h x hx)]

theorem foldl_from_filter (as : List Step) (l : Location) :
    (as.filter (· ≠ .stay)).foldl Step.from l = as.foldl Step.from l := by
  induction as generalizing l with
  | nil => rfl
  | cons a as ih =>
    by_cases ha : a = .stay
    · subst ha
      simpa [Step.from] using ih l
    · simpa [ha] using ih (a.from l)

theorem location_eq_foldl_strides (p : Path) : p.location = p.strides.foldl Step.from [] :=
  (foldl_from_filter p.steps []).symm

/-- Steps down lead to their names behind the location that they start from. -/
theorem foldl_from_map_down (names : List String) (l : Location) :
    (names.map Step.down).foldl Step.from l = l ++ names := by
  induction names generalizing l with
  | nil => exact (List.append_nil l).symm
  | cons s names ih =>
    rw [List.map_cons, List.foldl_cons, ih]
    exact List.append_assoc l [s] names

/-- Steps that move but do not go up go down. -/
theorem exists_eq_map_down {as : List Step} (hstay : .stay ∉ as) (hup : .up ∉ as) :
    ∃ names : List String, as = names.map Step.down := by
  induction as with
  | nil => exact ⟨[], rfl⟩
  | cons a as ih =>
    rw [List.mem_cons, not_or] at hstay hup
    obtain ⟨names, rfl⟩ := ih hstay.2 hup.2
    cases a with
    | stay => exact absurd rfl hstay.1
    | up => exact absurd rfl hup.1
    | down s => exact ⟨s :: names, rfl⟩

/-- The last step is the last one that moves. -/
theorem strides_of_lastStep {p : Path} {step : Step} (h : p.lastStep = step)
    (hstay : step ≠ .stay) : ∃ as, p.strides = as ++ [step] := by
  subst h
  obtain ⟨n, hn⟩ := p.steps_eq
  have hend : (List.replicate n Step.stay).filter (· ≠ .stay) = [] := by
    rw [List.filter_eq_nil_iff]
    intro a ha
    simp [List.eq_of_mem_replicate ha]
  refine ⟨p.firstSteps.filter (· ≠ .stay), ?_⟩
  show p.steps.filter (· ≠ .stay) = _
  rw [hn, List.filter_append, List.filter_cons_of_pos (by simpa using hstay), hend]

/-! ### The parent -/

/-- The start of the segments asks for no step that moves. -/
theorem start_spec (segments : List (List Char)) :
    ((start segments).1 ++ (start segments).2 = segments ∨ segments = [[]]) ∧
      stridesOf (start segments).1 = [] ∧
      stridesOf (start segments).2 = stridesOf segments := by
  unfold start
  split
  · exact ⟨.inr rfl, rfl, rfl⟩
  · rename_i rest _
    exact ⟨.inl rfl, rfl, (stridesOf_append [[]] rest).symm⟩
  · rename_i rest
    exact ⟨.inl rfl, rfl, (stridesOf_append [['.']] rest).symm⟩
  · exact ⟨.inl rfl, rfl, rfl⟩

theorem stridesOf_reverse_dropWhile (segments : List (List Char)) :
    stridesOf (segments.dropWhile isIdle).reverse = stridesOf segments.reverse := by
  have hidle : stridesOf (segments.takeWhile isIdle).reverse = [] := by
    refine stridesOf_of_idle fun x hx => ?_
    exact List.all_eq_true.1 List.all_takeWhile x (List.mem_reverse.1 hx)
  conv_rhs => rw [← List.takeWhile_append_dropWhile (p := isIdle) (l := segments)]
  rw [List.reverse_append, stridesOf_append, hidle, List.append_nil]

theorem stridesOf_reverse_lastFirst (segments : List (List Char)) :
    stridesOf (lastFirst segments).reverse = stridesOf segments := by
  rw [lastFirst, stridesOf_reverse_dropWhile, List.reverse_reverse]

theorem isIdle_of_lastFirst_eq_cons {segments before : List (List Char)} {last : List Char}
    (h : lastFirst segments = last :: before) : isIdle last = false := by
  have hne : segments.reverse.dropWhile isIdle ≠ [] := by
    rw [lastFirst] at h
    rw [h]
    exact List.cons_ne_nil last before
  have hhead := List.head_dropWhile_not isIdle hne
  rw [lastFirst] at h
  simp only [h, List.head_cons] at hhead
  exact hhead

theorem not_mem_of_mem_segments {p : Path} {segment : List Char} (h : segment ∈ p.segments) :
    '/' ∉ segment :=
  Text.not_mem_of_mem_fields h

theorem segments_joined {segments : List (List Char)} (hne : segments ≠ [])
    (h : ∀ x ∈ segments, '/' ∉ x) :
    (⟨String.ofList (Text.joined '/' segments)⟩ : Path).segments = segments := by
  rw [Path.segments, String.toList_ofList, Text.fields_joined hne h]

theorem strides_startText (first : List (List Char)) :
    (⟨String.ofList (startText first)⟩ : Path).strides = [] := by
  unfold startText
  split <;> rfl

/-- The parent of a path leads where the steps before the last one do. -/
theorem strides_of_parent? {p q : Path} (h : p.parent? = some q) :
    q.strides = p.strides.dropLast := by
  obtain ⟨hsegments, hfirst, hrest⟩ := start_spec p.segments
  have hclean : ∀ x ∈ (start p.segments).1 ++ (start p.segments).2, '/' ∉ x := by
    rcases hsegments with heq | hempty
    · intro x hx
      rw [heq] at hx
      exact not_mem_of_mem_segments hx
    · rw [hempty]
      simp [start]
  have hstrides : p.strides = stridesOf (lastFirst (start p.segments).2).reverse := by
    rw [stridesOf_reverse_lastFirst, hrest, strides]
  rw [parent?] at h
  dsimp only at h
  split at h
  · rename_i hlast
    rw [hlast] at hstrides
    split at h
    · obtain rfl := Option.some.inj h
      rw [hstrides]
      rfl
    · cases h
  · rename_i last before hlast
    have hidle : isIdle last = false := isIdle_of_lastFirst_eq_cons hlast
    have hdropLast : p.strides.dropLast = stridesOf before.reverse := by
      rw [hstrides, hlast, List.reverse_cons, stridesOf_append, stridesOf_singleton hidle,
        List.dropLast_concat]
    rw [hdropLast, ← stridesOf_reverse_dropWhile before]
    split at h
    · rename_i hkept
      obtain rfl := Option.some.inj h
      rw [strides_startText, hkept]
      rfl
    · rename_i hkept
      obtain rfl := Option.some.inj h
      have hsub : ∀ x ∈ before.dropWhile isIdle, x ∈ (start p.segments).2 := by
        intro x hx
        have hbefore : x ∈ lastFirst (start p.segments).2 := by
          rw [hlast]
          exact List.mem_cons_of_mem _ ((List.dropWhile_sublist _).subset hx)
        exact List.mem_reverse.1 ((List.dropWhile_sublist _).subset hbefore)
      rw [strides, segments_joined, stridesOf_append, hfirst, List.nil_append]
      · simp only [ne_eq, List.append_eq_nil_iff, List.reverse_eq_nil_iff, not_and]
        exact fun _ => hkept
      · intro x hx
        rcases List.mem_append.1 hx with hx | hx
        · exact hclean x (List.mem_append_left _ hx)
        · exact hclean x (List.mem_append_right _ (hsub x (List.mem_reverse.1 hx)))

/-- A path that asks for a step has a parent. -/
theorem exists_parent?_eq {p : Path} (h : p.strides ≠ []) : ∃ q, p.parent? = some q := by
  have hstrides : p.strides = stridesOf (lastFirst (start p.segments).2).reverse := by
    rw [stridesOf_reverse_lastFirst, (start_spec p.segments).2.2, strides]
  rw [parent?]
  dsimp only
  split
  · rename_i hlast
    rw [hstrides, hlast] at h
    exact absurd rfl h
  · split
    · exact ⟨_, rfl⟩
    · exact ⟨_, rfl⟩

/-! ### Ways -/

/-- Whether a path leads through a location, or to it. -/
def Through (p : Path) (l : Location) : Prop :=
  ∃ as, as <+: p.strides ∧ as.foldl Step.from [] = l

theorem through_location (p : Path) : p.Through p.location :=
  ⟨p.strides, List.prefix_rfl, p.location_eq_foldl_strides.symm⟩

/-- The steps along a path lead through its way. -/
theorem through_of_steps {p : Path} {as bs : List Step} (h : p.steps = as ++ bs) :
    p.Through (as.foldl Step.from []) := by
  refine ⟨as.filter (· ≠ .stay), ⟨bs.filter (· ≠ .stay), ?_⟩, foldl_from_filter as []⟩
  rw [← List.filter_append, ← h]
  rfl

/-- The way of the parent is part of the way. -/
theorem Through.of_parent? {p q : Path} {l : Location} (hq : p.parent? = some q)
    (h : q.Through l) : p.Through l := by
  obtain ⟨as, has, hl⟩ := h
  rw [strides_of_parent? hq] at has
  exact ⟨as, has.trans (List.dropLast_prefix _), hl⟩

theorem text_ne_of_location {p : Path} (h : p.location ≠ []) : p.text ≠ "" := by
  intro hempty
  have hp : p = ⟨""⟩ := by rw [← hempty]
  refine h ?_
  rw [hp]
  rfl

/-- Only the empty path is said to lead nowhere before it is followed. -/
theorem location_of_check {p : Path} (h : p.check = .error .notFound) : p.location = [] := by
  by_contra hne
  rw [check, if_neg (text_ne_of_location hne)] at h
  split at h
  · cases h
  · split at h <;> cases h

/-- Whether a path never goes up. -/
def IsPlain (p : Path) : Prop := .up ∉ p.steps

instance (p : Path) : Decidable p.IsPlain := inferInstanceAs (Decidable (_ ∉ _))

theorem isPlain_iff {p : Path} : p.IsPlain ↔ .up ∉ p.strides := by
  rw [IsPlain, strides, stridesOf, List.mem_filter, and_iff_left (by decide)]
  rfl

theorem location_of_strides {p : Path} {as : List Step} {name : String}
    (h : p.strides = as ++ [.down name]) : p.location = as.foldl Step.from [] ++ [name] := by
  rw [location_eq_foldl_strides, h, List.foldl_append]
  rfl

theorem prefix_foldl_from {as : List Step} (h : .up ∉ as) (l : Location) :
    l <+: as.foldl Step.from l := by
  induction as generalizing l with
  | nil => exact List.prefix_rfl
  | cons a as ih =>
    rw [List.mem_cons, not_or] at h
    refine List.IsPrefix.trans ?_ (ih h.2 (a.from l))
    cases a with
    | stay => exact List.prefix_rfl
    | up => exact absurd rfl h.1
    | down name => exact List.prefix_append l [name]

/-- A path that never goes up leads through what holds the location at its end, and no more. -/
theorem Through.prefix_of_isPlain {p : Path} (hp : p.IsPlain) {l : Location} (h : p.Through l) :
    l <+: p.location := by
  obtain ⟨as, ⟨bs, hbs⟩, rfl⟩ := h
  rw [location_eq_foldl_strides, ← hbs, List.foldl_append]
  refine prefix_foldl_from (fun hup => hp ?_) _
  have hmem : Step.up ∈ p.strides := by
    rw [← hbs]
    exact List.mem_append_right _ hup
  exact (List.mem_filter.1 hmem).1

end Path

namespace FileTree

variable {s t : FileTree} {l k m : Location} {p : Path}

/-- What lies below something lies in directories all the way. -/
theorem get?_of_prefix (h : t.get? k ≠ none) (hl : l <+: k) (hne : l ≠ k) :
    t.get? l = some .directory := by
  obtain ⟨r, rfl⟩ := hl
  induction r using List.reverseRecOn with
  | nil => exact absurd (List.append_nil l).symm hne
  | append_singleton r x ih =>
    have hholder := get?_dropLast h
    rw [← List.append_assoc, List.dropLast_concat] at hholder
    by_cases hr : r = []
    · rw [hr, List.append_nil] at hholder
      exact hholder
    · refine ih (by rw [hholder]; exact Option.some_ne_none _) fun heq => hr ?_
      exact List.append_right_eq_self.1 heq.symm

theorem get?_eq_none_of_within (h : t.get? l = none) (hl : l <+: k) : t.get? k = none := by
  by_contra hk
  by_cases hne : l = k
  · exact hk (hne ▸ h)
  · have hdir := get?_of_prefix hk hl hne
    rw [h] at hdir
    cases hdir

/-! ### Paths that lead to nothing -/

/-- A walk that finds nothing has come to a location where nothing is. -/
theorem exists_missing_of_walk {steps : List Path.Step} (h : t.walk l steps = .error .notFound) :
    ∃ as bs, steps = as ++ bs ∧ t.get? (as.foldl Path.Step.from l) = none := by
  induction steps generalizing l with
  | nil => cases h
  | cons a rest ih =>
    rw [walk] at h
    split at h
    · rename_i hmissing
      exact ⟨[], a :: rest, rfl, hmissing⟩
    · cases h
    · split at h
      · cases h
      · obtain ⟨as, bs, rfl, hmissing⟩ := ih h
        exact ⟨a :: as, bs, rfl, hmissing⟩

/-- A path that leads to nothing comes to a location where nothing is. -/
theorem exists_missing_of_stat (h : t.stat p = .error .notFound) (hne : p.location ≠ []) :
    ∃ l, p.Through l ∧ t.get? l = none := by
  cases hcheck : p.check with
  | error e =>
    have herror : t.stat p = .error e := by simp only [stat, locate, hcheck, bind, Except.bind]
    obtain rfl : e = .notFound := Except.error.inj (herror.symm.trans h)
    exact absurd (Path.location_of_check hcheck) hne
  | ok u =>
    have hlocate : t.locate p = t.walk [] p.steps := locate_eq_walk hcheck
    cases hwalk : t.walk [] p.steps with
    | error e =>
      have herror : t.stat p = .error e := by simp only [stat, hlocate, hwalk, bind, Except.bind]
      obtain rfl : e = .notFound := Except.error.inj (herror.symm.trans h)
      obtain ⟨as, bs, hsteps, hmissing⟩ := exists_missing_of_walk hwalk
      exact ⟨_, Path.through_of_steps hsteps, hmissing⟩
    | ok m =>
      obtain rfl : m = p.location := walk_eq_ok hwalk
      refine ⟨_, p.through_location, ?_⟩
      cases hget : t.get? p.location with
      | none => rfl
      | some n =>
        rw [stat_eq_ok_iff.2 ⟨_, hlocate.trans hwalk, hget⟩] at h
        cases h

/-- A path that never goes up and finds nothing leads to nothing. -/
theorem get?_location_of_stat (hp : p.IsPlain) (hne : p.location ≠ [])
    (h : t.stat p = .error .notFound) : t.get? p.location = none := by
  obtain ⟨l, hl, hmissing⟩ := exists_missing_of_stat h hne
  exact get?_eq_none_of_within hmissing (hl.prefix_of_isPlain hp)

/-! ### Trees with more directories -/

/-- Whether all directories of a tree are directories of another one. -/
def KeepsDirectories (t s : FileTree) : Prop :=
  ∀ l, t.get? l = some .directory → s.get? l = some .directory

theorem KeepsDirectories.trans {u : FileTree} (h : t.KeepsDirectories u)
    (h' : u.KeepsDirectories s) : t.KeepsDirectories s :=
  fun l hl => h' l (h l hl)

theorem walk_of_keeps (h : t.KeepsDirectories s) {steps : List Path.Step}
    (hwalk : t.walk l steps = .ok m) : s.walk l steps = .ok m := by
  induction steps generalizing l with
  | nil => exact hwalk
  | cons a rest ih =>
    obtain ⟨hdir, hlong, hrest⟩ := walk_cons_eq_ok hwalk
    have hsplit : s.walk l (a :: rest) = s.walk (a.from l) rest := by
      rw [← List.singleton_append, walk_append, walk_singleton (h l hdir) hlong]
      rfl
    rw [hsplit]
    exact ih hrest

theorem locate_of_keeps (h : t.KeepsDirectories s) (hp : t.locate p = .ok l) :
    s.locate p = .ok l := by
  have hcheck := check_of_locate hp
  rw [locate_eq_walk hcheck] at hp ⊢
  exact walk_of_keeps h hp

theorem locateHolder_of_keeps (h : t.KeepsDirectories s) (hp : t.locateHolder p = .ok l) :
    s.locateHolder p = .ok l := by
  have hcheck := (locateHolder_eq_ok hp).1
  rw [locateHolder_eq_walk hcheck] at hp ⊢
  exact walk_of_keeps h hp

/-- A path still leads to what is where it led before. -/
theorem stat_of_keeps {m n : Node} (h : t.KeepsDirectories s) (hp : t.stat p = .ok m)
    (hn : s.get? p.location = some n) : s.stat p = .ok n := by
  obtain ⟨k, hk, -⟩ := stat_eq_ok_iff.1 hp
  obtain rfl := locate_eq_ok hk
  exact stat_eq_ok_iff.2 ⟨_, locate_of_keeps h hk, hn⟩

/-- A path still leads to a directory where it led to one. -/
theorem stat_directory_of_keeps (h : t.KeepsDirectories s) (hp : t.stat p = .ok .directory) :
    s.stat p = .ok .directory :=
  stat_of_keeps h hp (h _ (get?_of_stat hp))

theorem read_eq_ok_iff {content : ByteArray} :
    t.read p = .ok content ↔ t.stat p = .ok (.file content) := by
  rw [read]
  cases h : t.stat p with
  | error e => simp [bind, Except.bind]
  | ok n =>
    cases n with
    | directory =>
      simp only [bind, Except.bind, Except.ok.injEq, reduceCtorEq]
    | file c =>
      simp only [bind, Except.bind, Except.ok.injEq, Node.file.injEq]
      exact ⟨fun h => Except.ok.inj h, fun h => congrArg Except.ok h⟩

/-- A file that holds the bytes of a text reads as that text. -/
theorem readText_of_read {text : String} (h : t.read p = .ok text.toUTF8) :
    t.readText p = .ok text := by
  have hdecode : String.fromUTF8? text.toUTF8 = some text := by
    rw [String.fromUTF8?, String.toUTF8_eq_toByteArray, dif_pos text.isValidUTF8]
    rfl
  simp only [readText, h, bind, Except.bind, hdecode]
  rfl

/-- A text is read again where its path leads to what it led to. -/
theorem readText_of_stat {text : String} (h : t.readText p = .ok text)
    (hstat : ∀ n, t.stat p = .ok n → s.stat p = .ok n) : s.readText p = .ok text := by
  cases hread : t.read p with
  | error e =>
    rw [readText, hread] at h
    cases h
  | ok content =>
    have hagain : s.read p = .ok content :=
      read_eq_ok_iff.2 (hstat _ (read_eq_ok_iff.1 hread))
    have hsame : s.readText p = t.readText p := by rw [readText, readText, hagain, hread]
    rw [hsame, h]

theorem isFile_iff : t.isFile p = true ↔ ∃ content, t.read p = .ok content := by
  simp only [read_eq_ok_iff]
  rw [isFile]
  cases h : t.stat p with
  | error e => simp
  | ok n => cases n <;> simp

end FileTree

end ResourceCompiler
