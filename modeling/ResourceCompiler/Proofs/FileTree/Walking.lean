import ResourceCompiler.FileTree.Access

/-!
# Walking along paths

A path is its last step behind the steps that lead to the directory where this one starts, with
steps that stay for the slashes at its end. A walk in a part of a tree arrives where the walk in the
tree does, or finds nothing on its way.

* `FileTree.walk_append`: a walk in two parts.
* `FileTree.IsPart`, `FileTree.walk_of_isPart`: walks in a part of a tree.
* `FileTree.locateHolder_of_locate`, `FileTree.locate_of_locateHolder`: a path and the directory
  that its last step starts from.
-/

namespace ResourceCompiler

namespace Text

theorem fields_append_singleton (sep : Char) (cs : List Char) :
    fields sep (cs ++ [sep]) = fields sep cs ++ [[]] := by
  induction cs with
  | nil => simp [fields]
  | cons c cs ih =>
    rw [List.cons_append, fields, fields, ih]
    by_cases hc : c = sep
    · rw [if_pos hc, if_pos hc, List.cons_append]
    · rw [if_neg hc, if_neg hc]
      cases hf : fields sep cs with
      | nil => exact absurd hf (fields_ne_nil sep cs)
      | cons f fs => rfl

theorem fields_append_replicate (sep : Char) (cs : List Char) (n : Nat) :
    fields sep (cs ++ List.replicate n sep) = fields sep cs ++ List.replicate n [] := by
  induction n with
  | zero => rw [List.replicate_zero, List.append_nil, List.replicate_zero, List.append_nil]
  | succ n ih =>
    rw [List.replicate_succ', ← List.append_assoc, fields_append_singleton, ih, List.append_assoc,
      ← List.replicate_succ']

end Text

namespace Path

/-- The steps that lead to where the last step starts. -/
def firstSteps (p : Path) : List Step := p.withoutFinalSlashes.steps.dropLast

theorem steps_withoutFinalSlashes (p : Path) :
    p.withoutFinalSlashes.steps = p.firstSteps ++ [p.lastStep] := by
  have hne : p.withoutFinalSlashes.steps ≠ [] := by
    intro h
    exact Text.fields_ne_nil '/' _ (List.map_eq_nil_iff.1 h)
  rw [firstSteps, lastStep, List.getLast?_eq_some_getLast hne, Option.getD_some,
    List.dropLast_concat_getLast hne]

/-- The slashes at the end of a path ask for steps that stay. -/
theorem steps_eq (p : Path) :
    ∃ n, p.steps = p.firstSteps ++ p.lastStep :: List.replicate n .stay := by
  obtain ⟨n, hn⟩ :
      ∃ n, p.text.toList = p.withoutFinalSlashes.text.toList ++ List.replicate n '/' := by
    let slashes := p.text.toList.reverse.takeWhile (· = '/')
    have hslashes : slashes = List.replicate slashes.length '/' := by
      refine List.eq_replicate_of_mem fun c hc => ?_
      exact of_decide_eq_true (List.all_eq_true.1 List.all_takeWhile c hc)
    have hsplit : slashes ++ p.text.toList.reverse.dropWhile (· = '/') = p.text.toList.reverse :=
      List.takeWhile_append_dropWhile
    refine ⟨slashes.length, ?_⟩
    rw [withoutFinalSlashes, String.toList_ofList, ← List.reverse_replicate, ← hslashes,
      ← List.reverse_append, hsplit, List.reverse_reverse]
  refine ⟨n, ?_⟩
  rw [← List.singleton_append, ← List.append_assoc, ← steps_withoutFinalSlashes, steps, segments,
    hn, Text.fields_append_replicate, List.map_append, List.map_replicate]
  rfl

theorem withoutFinalSlashes_eq {p : Path} (h : p.endsWithSlash = false) :
    p.withoutFinalSlashes = p := by
  have hhead : p.text.toList.reverse.dropWhile (· = '/') = p.text.toList.reverse := by
    rw [endsWithSlash, beq_eq_false_iff_ne, ← List.head?_reverse] at h
    cases hc : p.text.toList.reverse with
    | nil => rfl
    | cons c r =>
      rw [hc, List.head?_cons] at h
      exact List.dropWhile_cons_of_neg (by simpa using h)
  rw [withoutFinalSlashes, hhead, List.reverse_reverse, String.ofList_toList]

end Path

namespace FileTree

variable {s t : FileTree} {l m : Location}

theorem walk_append (t : FileTree) (l : Location) (as bs : List Path.Step) :
    t.walk l (as ++ bs) = (t.walk l as).bind fun m => t.walk m bs := by
  induction as generalizing l with
  | nil => rfl
  | cons a as ih =>
    rw [List.cons_append, walk, walk]
    cases t.get? l with
    | none => rfl
    | some n =>
      cases n with
      | file => rfl
      | directory =>
        cases a.isTooLong with
        | true => rfl
        | false => exact ih (a.from l)

theorem walk_singleton (h : t.get? l = some .directory) {a : Path.Step}
    (ha : a.isTooLong = false) : t.walk l [a] = .ok (a.from l) := by
  rw [walk, h]
  simp only [ha]
  rfl

theorem walk_replicate_stay (h : t.get? l = some .directory) (n : Nat) :
    t.walk l (List.replicate n .stay) = .ok l := by
  induction n with
  | zero => rfl
  | succ n ih =>
    rw [List.replicate_succ, ← List.singleton_append, walk_append, walk_singleton h rfl]
    exact ih

/-- Only a directory is left by a step. -/
theorem walk_cons_eq_ok {a : Path.Step} {as : List Path.Step} (h : t.walk l (a :: as) = .ok m) :
    t.get? l = some .directory ∧ a.isTooLong = false ∧ t.walk (a.from l) as = .ok m := by
  rw [walk] at h
  split at h
  · cases h
  · cases h
  · rename_i hl
    split at h
    · cases h
    · rename_i ha
      exact ⟨hl, Bool.eq_false_iff.2 ha, h⟩

theorem walk_append_eq_ok {as bs : List Path.Step} {k : Location}
    (h : t.walk l (as ++ bs) = .ok k) : ∃ m, t.walk l as = .ok m ∧ t.walk m bs = .ok k := by
  rw [walk_append] at h
  cases ha : t.walk l as with
  | error e => rw [ha] at h; cases h
  | ok m =>
    rw [ha] at h
    exact ⟨m, rfl, h⟩

/-! ### The last step -/

theorem locate_eq_walk {p : Path} (h : p.check = .ok ()) : t.locate p = t.walk [] p.steps := by
  simp only [locate, h, bind, Except.bind]

theorem locateName_eq_walk {p : Path} (h : p.check = .ok ()) :
    t.locateName p = t.walk [] (p.firstSteps ++ [p.lastStep]) := by
  simp only [locateName, h, bind, Except.bind, p.steps_withoutFinalSlashes]

theorem locateHolder_eq_walk {p : Path} (h : p.check = .ok ()) :
    t.locateHolder p = t.walk [] (p.firstSteps ++ [.stay]) := by
  simp only [locateHolder, h, bind, Except.bind, Path.firstSteps]

theorem check_of_locate {p : Path} (h : t.locate p = .ok l) : p.check = .ok () := by
  cases hc : p.check with
  | error e => rw [locate, hc] at h; cases h
  | ok => rfl

theorem locateHolder_eq_ok {p : Path} (h : t.locateHolder p = .ok m) :
    p.check = .ok () ∧ t.walk [] p.firstSteps = .ok m ∧ t.get? m = some .directory := by
  have hcheck : p.check = .ok () := by
    cases hc : p.check with
    | error e => rw [locateHolder, hc] at h; cases h
    | ok => rfl
  rw [locateHolder_eq_walk hcheck] at h
  obtain ⟨k, hk, hstay⟩ := walk_append_eq_ok h
  obtain ⟨hdir, -, hend⟩ := walk_cons_eq_ok hstay
  obtain rfl : k = m := Except.ok.inj hend
  exact ⟨hcheck, hk, hdir⟩

/-- A path that leads somewhere takes its last step from a directory. -/
theorem locateHolder_of_locate {p : Path} (h : t.locate p = .ok l) :
    ∃ m, t.locateHolder p = .ok m ∧ p.lastStep.isTooLong = false ∧ l = p.lastStep.from m := by
  have hcheck := check_of_locate h
  obtain ⟨n, hn⟩ := p.steps_eq
  rw [locate_eq_walk hcheck, hn] at h
  obtain ⟨m, hm, hlast⟩ := walk_append_eq_ok h
  obtain ⟨hdir, hlong, hend⟩ := walk_cons_eq_ok hlast
  refine ⟨m, ?_, hlong, ?_⟩
  · rw [locateHolder_eq_walk hcheck, walk_append, hm]
    exact walk_singleton hdir rfl
  · cases n with
    | zero => exact (Except.ok.inj hend).symm
    | succ n =>
      have hstay := walk_replicate_stay (walk_cons_eq_ok hend).1 (n + 1)
      exact (Except.ok.inj (hstay.symm.trans hend)).symm

/-- The last step leads to a directory whatever slashes stand behind it. -/
theorem locate_of_locateHolder {p : Path} (h : t.locateHolder p = .ok m)
    (hlong : p.lastStep.isTooLong = false) (hdir : t.get? (p.lastStep.from m) = some .directory) :
    t.locate p = .ok (p.lastStep.from m) := by
  obtain ⟨hcheck, hm, hholder⟩ := locateHolder_eq_ok h
  obtain ⟨n, hn⟩ := p.steps_eq
  rw [locate_eq_walk hcheck, hn, walk_append, hm]
  show t.walk m ([p.lastStep] ++ List.replicate n .stay) = _
  rw [walk_append, walk_singleton hholder hlong]
  exact walk_replicate_stay hdir n

theorem locateName_of_locateHolder {p : Path} (h : t.locateHolder p = .ok m)
    (hlong : p.lastStep.isTooLong = false) : t.locateName p = .ok (p.lastStep.from m) := by
  obtain ⟨hcheck, hm, hholder⟩ := locateHolder_eq_ok h
  rw [locateName_eq_walk hcheck, walk_append, hm]
  exact walk_singleton hholder hlong

/-! ### Parts of a tree -/

/-- A tree that lacks some nodes of another one and is the same otherwise. -/
def IsPart (s t : FileTree) : Prop := ∀ l, s.get? l = none ∨ s.get? l = t.get? l

/-- A walk in a part of a tree arrives at the same place, or something is missing. -/
theorem walk_of_isPart (hs : s.IsPart t) {as : List Path.Step} (h : t.walk l as = .ok m) :
    s.walk l as = .ok m ∨ s.walk l as = .error .notFound := by
  induction as generalizing l with
  | nil => exact .inl h
  | cons a as ih =>
    obtain ⟨hdir, hlong, hrest⟩ := walk_cons_eq_ok h
    rcases hs l with hnone | hsame
    · refine .inr ?_
      rw [walk, hnone]
    · rw [hdir] at hsame
      have hcons : s.walk l (a :: as) = s.walk (a.from l) as := by
        rw [← List.singleton_append, walk_append, walk_singleton hsame hlong]
        rfl
      rw [hcons]
      exact ih hrest

theorem locateHolder_of_isPart (hs : s.IsPart t) {p : Path} (h : t.locateHolder p = .ok m) :
    s.locateHolder p = .ok m ∨ s.locateHolder p = .error .notFound := by
  have hcheck := (locateHolder_eq_ok h).1
  rw [locateHolder_eq_walk hcheck] at h ⊢
  exact walk_of_isPart hs h

/-! ### What a path leads to -/

/-- Whether there is something at a path. -/
def Holds (t : FileTree) (p : Path) : Prop := ∃ n, t.stat p = .ok n

theorem stat_eq_ok_iff {p : Path} {n : Node} :
    t.stat p = .ok n ↔ ∃ l, t.locate p = .ok l ∧ t.get? l = some n := by
  rw [stat]
  cases hl : t.locate p with
  | error e =>
    constructor
    · intro h
      cases h
    · rintro ⟨l, h, -⟩
      cases h
  | ok l =>
    cases hn : t.get? l with
    | none =>
      constructor
      · intro h
        simp only [bind, Except.bind, hn] at h
        cases h
      · rintro ⟨k, hk, hget⟩
        rw [← Except.ok.inj hk, hn] at hget
        cases hget
    | some n' =>
      simp only [bind, Except.bind, hn]
      constructor
      · intro h
        exact ⟨l, rfl, by rw [hn, Except.ok.inj h]⟩
      · rintro ⟨k, hk, hget⟩
        rw [← Except.ok.inj hk, hn] at hget
        rw [Option.some.inj hget]
        rfl

/-- What a path leads to is where it ends. -/
theorem get?_of_stat {p : Path} {n : Node} (h : t.stat p = .ok n) :
    t.get? p.location = some n := by
  obtain ⟨l, hl, hn⟩ := stat_eq_ok_iff.1 h
  rwa [locate_eq_ok hl] at hn

theorem isDirectory_iff {p : Path} : t.isDirectory p = true ↔ t.stat p = .ok .directory := by
  rw [isDirectory]
  cases h : t.stat p with
  | error e => simp
  | ok n => cases n <;> simp

end FileTree

end ResourceCompiler
