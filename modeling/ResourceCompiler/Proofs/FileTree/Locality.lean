import ResourceCompiler.Proofs.FileTree.Climbing
import ResourceCompiler.Proofs.FileTree.Writing

/-!
# Actions that look at part of a tree

What a request does depends on what is on the way of its path, and on nothing else. An action made
of requests whose ways are within a part of a tree does the same to all trees that agree on that
part, and they agree on it afterwards.

* `FileTree.AgreeOn`, `Path.Within`: trees that agree on a part, and paths that keep to it.
* `FileTree.locate_congr`, `FileTree.stat_congr`: looking by a path within the part.
* `FileAction.IsLocal`: actions that do the same to trees that agree.
* `isLocal_createHolders`, `isLocal_write`, `isLocal_copyFile`: requests along paths within the
  part.
-/

namespace ResourceCompiler

/-- Whether the way of a path keeps to a part of a tree. -/
def Path.Within (A : Location → Prop) (p : Path) : Prop := ∀ l, p.Through l → A l

theorem Path.Within.of_parent? {A : Location → Prop} {p q : Path} (h : p.Within A)
    (hq : p.parent? = some q) : q.Within A := fun l hl => h l (hl.of_parent? hq)

namespace FileTree

variable {A : Location → Prop} {s t : FileTree} {l : Location} {p q : Path} {content : ByteArray}

/-- Whether two trees have the same at the locations of a part. -/
def AgreeOn (A : Location → Prop) (s t : FileTree) : Prop := ∀ l, A l → s.get? l = t.get? l

/-! ### Looking -/

theorem walk_congr {steps : List Path.Step}
    (h : ∀ as bs, steps = as ++ bs →
      s.get? (as.foldl Path.Step.from l) = t.get? (as.foldl Path.Step.from l)) :
    s.walk l steps = t.walk l steps := by
  induction steps generalizing l with
  | nil => rfl
  | cons a rest ih =>
    have hstart : s.get? l = t.get? l := h [] (a :: rest) rfl
    have hrest : s.walk (a.from l) rest = t.walk (a.from l) rest :=
      ih fun as bs heq => h (a :: as) bs (by rw [heq, List.cons_append])
    rw [walk, walk, hstart, hrest]

theorem locate_congr (h : AgreeOn A s t) (hp : p.Within A) : s.locate p = t.locate p := by
  have hwalk : s.walk [] p.steps = t.walk [] p.steps :=
    walk_congr fun as bs heq => h _ (hp _ (Path.through_of_steps heq))
  rw [locate, locate, hwalk]

/-- The steps up to the last one are on the way, and so is the end. -/
theorem through_of_firstSteps {as bs : List Path.Step}
    (h : p.firstSteps ++ [p.lastStep] = as ++ bs) : p.Through (as.foldl Path.Step.from []) := by
  obtain ⟨n, hn⟩ := p.steps_eq
  have hsteps : p.steps = as ++ (bs ++ List.replicate n .stay) := by
    rw [hn, ← List.append_assoc, ← h, List.append_assoc, List.singleton_append]
  exact Path.through_of_steps hsteps

theorem locateName_congr (h : AgreeOn A s t) (hp : p.Within A) :
    s.locateName p = t.locateName p := by
  have hwalk : s.walk [] p.withoutFinalSlashes.steps = t.walk [] p.withoutFinalSlashes.steps := by
    refine walk_congr fun as bs heq => ?_
    have hsplit : p.firstSteps ++ [p.lastStep] = as ++ bs := by
      rw [← p.steps_withoutFinalSlashes, heq]
    exact h _ (hp _ (through_of_firstSteps hsplit))
  rw [locateName, locateName, hwalk]

theorem locateHolder_congr (h : AgreeOn A s t) (hp : p.Within A) :
    s.locateHolder p = t.locateHolder p := by
  have hfirst {as bs : List Path.Step} (heq : p.firstSteps = as ++ bs) :
      p.Through (as.foldl Path.Step.from []) := by
    have hsplit : p.firstSteps ++ [p.lastStep] = as ++ (bs ++ [p.lastStep]) := by
      rw [heq, List.append_assoc]
    exact through_of_firstSteps hsplit
  have hwalk : s.walk [] (p.firstSteps ++ [.stay]) = t.walk [] (p.firstSteps ++ [.stay]) := by
    rw [walk_append, walk_append, walk_congr fun as bs heq => h _ (hp _ (hfirst heq))]
    cases hm : t.walk [] p.firstSteps with
    | error e => rfl
    | ok m =>
      have hsame : s.get? m = t.get? m := by
        rw [walk_eq_ok hm]
        exact h _ (hp _ (hfirst (List.append_nil _).symm))
      show s.walk m [.stay] = t.walk m [.stay]
      rw [walk, walk, hsame]
      rfl
  rw [locateHolder, locateHolder]
  exact congrArg _ (funext fun _ => hwalk)

theorem stat_congr (h : AgreeOn A s t) (hp : p.Within A) : s.stat p = t.stat p := by
  rw [stat, stat, locate_congr h hp]
  cases hl : t.locate p with
  | error e => rfl
  | ok l =>
    have hsame : s.get? l = t.get? l := by
      rw [locate_eq_ok hl]
      exact h _ (hp _ p.through_location)
    simp only [bind, Except.bind, hsame]

theorem isDirectory_congr (h : AgreeOn A s t) (hp : p.Within A) :
    s.isDirectory p = t.isDirectory p := by
  rw [isDirectory, isDirectory, stat_congr h hp]

theorem isFile_congr (h : AgreeOn A s t) (hp : p.Within A) : s.isFile p = t.isFile p := by
  rw [isFile, isFile, stat_congr h hp]

theorem read_congr (h : AgreeOn A s t) (hp : p.Within A) : s.read p = t.read p := by
  rw [read, read, stat_congr h hp]

/-! ### Changing -/

theorem AgreeOn.gains {n : Node} {s' t' : FileTree} (h : AgreeOn A s t) (hs : s.Gains l n s')
    (ht : t.Gains l n t') : AgreeOn A s' t' := by
  intro k hk
  rw [hs k, ht k, h k hk]

/-- The outcomes of a request on two trees that agree on a part: the same fault, or trees that agree
on it again. -/
inductive Alike (A : Location → Prop) : Except FileError FileTree → Except FileError FileTree → Prop
  | error (e : FileError) : Alike A (.error e) (.error e)
  | ok {s t : FileTree} (h : AgreeOn A s t) : Alike A (.ok s) (.ok t)

theorem Alike.exists_eq_ok {r r' : Except FileError FileTree} (h : Alike A r r')
    (hr : r = .ok s) : ∃ t, r' = .ok t ∧ AgreeOn A s t := by
  cases h with
  | error e => cases hr
  | @ok s' t' h =>
    obtain rfl := Except.ok.inj hr
    exact ⟨t', rfl, h⟩

theorem createDirectory_congr (h : AgreeOn A s t) (hp : p.Within A) :
    Alike A (s.createDirectory p) (t.createDirectory p) := by
  have hname := locateName_congr h hp
  cases hl : t.locateName p with
  | error e =>
    rw [hl] at hname
    simp only [createDirectory, hl, hname, bind, Except.bind]
    exact .error e
  | ok l =>
    rw [hl] at hname
    have hsame : s.get? l = t.get? l := by
      rw [locateName_eq_ok hl]
      exact h _ (hp _ p.through_location)
    by_cases vacant : t.get? l = none
    · obtain ⟨s', hs', hsgains⟩ := exists_createDirectory hname (hsame.trans vacant)
      obtain ⟨t', ht', htgains⟩ := exists_createDirectory hl vacant
      rw [hs', ht']
      exact .ok (h.gains hsgains htgains)
    · have vacant' : ¬ s.get? l = none := hsame ▸ vacant
      simp only [createDirectory, hl, hname, bind, Except.bind, dif_neg vacant, dif_neg vacant']
      exact .error .alreadyExists

theorem locateFile_congr (h : AgreeOn A s t) (hp : p.Within A) :
    s.locateFile p = t.locateFile p := by
  rw [locateFile, locateFile, locateHolder_congr h hp, locate_congr h hp]

theorem write_congr (h : AgreeOn A s t) (hp : p.Within A) (content : ByteArray) :
    Alike A (s.write p content) (t.write p content) := by
  have hfile := locateFile_congr h hp
  cases hl : t.locateFile p with
  | error e =>
    rw [hl] at hfile
    simp only [write, hl, hfile, bind, Except.bind]
    exact .error e
  | ok l =>
    rw [hl] at hfile
    have hsame : s.get? l = t.get? l := by
      rw [locate_eq_ok (locateFile_eq_ok hl).2]
      exact h _ (hp _ p.through_location)
    by_cases vacant : t.get? l ≠ some .directory
    · obtain ⟨s', hs', hsgains⟩ := exists_write hfile (hsame ▸ vacant) content
      obtain ⟨t', ht', htgains⟩ := exists_write hl vacant content
      rw [hs', ht']
      exact .ok (h.gains hsgains htgains)
    · have vacant' : ¬ s.get? l ≠ some .directory := hsame ▸ vacant
      simp only [write, hl, hfile, bind, Except.bind, dif_neg vacant, dif_neg vacant']
      exact .error .isADirectory

theorem AgreeOn.prune (h : AgreeOn A s t) (l : Location) : AgreeOn A (s.prune l) (t.prune l) := by
  intro k hk
  by_cases hroot : k = []
  · rw [hroot]
    rfl
  · rw [get?_prune s _ _ hroot, get?_prune t _ _ hroot, h k hk]

theorem rename_congr (h : AgreeOn A s t) (hp : p.Within A) (hq : q.Within A) :
    Alike A (s.rename p q) (t.rename p q) := by
  rw [rename, rename, read_congr h hp, locateHolder_congr h hq, locateName_congr h hq]
  cases t.read p with
  | error e => exact .error e
  | ok content =>
    cases t.locateHolder q with
    | error e => exact .error e
    | ok m =>
      simp only [bind, Except.bind]
      cases q.lastStep with
      | stay => exact .error .busy
      | up => exact .error .busy
      | down name =>
        cases t.locateName q with
        | error e => exact .error e
        | ok l =>
          dsimp only
          split
          · exact .error .notADirectory
          · split
            · exact .ok h
            · exact write_congr (h.prune p.location) hq content

end FileTree

open FileTree

variable {A : Location → Prop} {p q : Path}

/-! ### Actions -/

namespace FileAction

variable {ε δ α β : Type}

/-- Whether an action gives the same on trees that agree on a part, and they agree on it
afterwards. -/
def IsLocal (A : Location → Prop) (x : FileAction ε α) : Prop :=
  ∀ ⦃s t⦄, AgreeOn A s t → (x.run s).1 = (x.run t).1 ∧ AgreeOn A (x.run s).2 (x.run t).2

namespace IsLocal

/-- What an action does on one tree, it does on any tree that agrees with it. -/
theorem exists_run_eq {x : FileAction ε α} (hx : IsLocal A x) {s s' t : FileTree} {r : Except ε α}
    (h : AgreeOn A s t) (hrun : x.run s = (r, s')) : ∃ t', x.run t = (r, t') ∧ AgreeOn A s' t' := by
  obtain ⟨hsame, hagree⟩ := hx h
  rw [hrun] at hsame hagree
  exact ⟨(x.run t).2, Prod.ext hsame.symm rfl, hagree⟩

theorem pure (a : α) : IsLocal A (Pure.pure a : FileAction ε α) := fun _ _ h => ⟨rfl, h⟩

theorem fail (e : ε) : IsLocal A (FileAction.fail e : FileAction ε α) := fun _ _ h => ⟨rfl, h⟩

theorem bind {x : FileAction ε α} {f : α → FileAction ε β} (hx : IsLocal A x)
    (hf : ∀ a, IsLocal A (f a)) : IsLocal A (x >>= f) := by
  intro s t h
  obtain ⟨hsame, hagree⟩ := hx h
  rw [run_bind, run_bind]
  cases hs : x.run s with
  | mk r s' =>
    cases ht : x.run t with
    | mk r' t' =>
      rw [hs, ht] at hsame hagree
      obtain rfl : r = r' := hsame
      cases r with
      | ok a => exact hf a hagree
      | error e => exact ⟨rfl, hagree⟩

theorem attempt {x : FileAction ε α} (hx : IsLocal A x) :
    IsLocal A (x.attempt : FileAction δ (Except ε α)) := by
  intro s t h
  obtain ⟨hsame, hagree⟩ := hx h
  exact ⟨congrArg Except.ok hsame, hagree⟩

theorem mapError {x : FileAction ε α} (hx : IsLocal A x) (g : ε → δ) :
    IsLocal A (x.mapError g) := by
  intro s t h
  obtain ⟨hsame, hagree⟩ := hx h
  simp only [FileAction.run] at hsame hagree ⊢
  rw [FileAction.mapError, FileAction.mapError]
  cases hs : x s with
  | mk r s' =>
    cases ht : x t with
    | mk r' t' =>
      rw [hs, ht] at hsame hagree
      obtain rfl : r = r' := hsame
      cases r with
      | ok a => exact ⟨rfl, hagree⟩
      | error e => exact ⟨rfl, hagree⟩

theorem ask {f : FileTree → α} (hf : ∀ s t, AgreeOn A s t → f s = f t) :
    IsLocal A (FileAction.ask f : FileAction ε α) :=
  fun s t h => ⟨congrArg Except.ok (hf s t h), h⟩

theorem examine {f : FileTree → Except ε α} (hf : ∀ s t, AgreeOn A s t → f s = f t) :
    IsLocal A (FileAction.examine f) := fun s t h => ⟨hf s t h, h⟩

theorem change {f : FileTree → Except FileError FileTree}
    (hf : ∀ s t, AgreeOn A s t → Alike A (f s) (f t)) : IsLocal A (FileAction.change f) := by
  intro s t h
  have halike := hf s t h
  simp only [FileAction.run, FileAction.change]
  generalize f s = r, f t = r' at halike
  cases halike with
  | error e => exact ⟨rfl, h⟩
  | ok hagree => exact ⟨rfl, hagree⟩

theorem each {f : α → FileAction ε β} {as : List α} (hf : ∀ a ∈ as, IsLocal A (f a)) :
    IsLocal A (FileAction.each f as) := by
  induction as with
  | nil => exact .pure []
  | cons a as ih =>
    refine .bind (hf a List.mem_cons_self) fun b => ?_
    exact .bind (ih fun x hx => hf x (List.mem_cons_of_mem a hx)) fun bs => .pure (b :: bs)

end IsLocal

end FileAction

open FileAction

/-! ### Requests along a path -/

theorem isLocal_createDirectoriesWith (fuel : Nat) (hp : p.Within A) :
    IsLocal A (createDirectoriesWith fuel p) := by
  have hmake (ε : Type) {q : Path} (hq : q.Within A) : IsLocal A
      (attempt (.change fun t => t.createDirectory q) :
        FileAction ε (Except FileError Unit)) :=
    (IsLocal.change fun _ _ h => createDirectory_congr h hq).attempt
  have hthere {q : Path} (hq : q.Within A) (e : FileError) : IsLocal A (do
      if ← ask fun t => t.isDirectory q then pure () else fail e : FileAction FileError Unit) := by
    refine (IsLocal.ask fun _ _ h => isDirectory_congr h hq).bind fun there => ?_
    cases there with
    | true => exact .pure ()
    | false => exact .fail e
  induction fuel generalizing p with
  | zero => exact .fail _
  | succ fuel ih =>
    rw [createDirectoriesWith]
    split
    · exact .pure ()
    · refine (hmake FileError hp).bind fun r => ?_
      split
      · exact .pure ()
      · split
        · exact .fail _
        · rename_i parent hparent
          refine (ih (hp.of_parent? hparent)).bind fun _ => (hmake FileError hp).bind fun r => ?_
          split
          · exact .pure ()
          · exact hthere hp _
      · exact hthere hp _

theorem isLocal_createHolders (hp : p.Within A) : IsLocal A (createHolders p) := by
  rw [createHolders]
  split
  · rename_i parent hparent
    exact isLocal_createDirectoriesWith _ (hp.of_parent? hparent)
  · exact .pure ()

theorem isLocal_write (hp : p.Within A) (content : ByteArray) :
    IsLocal A (change fun t => t.write p content) :=
  .change fun _ _ h => write_congr h hp content

theorem isLocal_copyFile (hq : q.Within A) (hp : p.Within A) : IsLocal A (copyFile q p) := by
  have hread : IsLocal A (examine fun t => t.read q) := .examine fun _ _ h => read_congr h hq
  exact hread.bind fun _ => (isLocal_write hp _).bind fun _ => hread.bind fun content =>
    isLocal_write hp content

end ResourceCompiler
