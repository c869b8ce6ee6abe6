import Mathlib.Data.List.Basic
import ResourceCompiler.Metadata.Container

/-!
# Validation of container trees

A tree of containers is valid if and only if no container in it holds two entries of the same kind
and key, and no object an entry of another kind than it declares. Otherwise the fault is that of the
first entry, in the order of the walk, that is not as the entries before it allow.

* `Container.SoundEntries`, `Container.Sound`: entries, and containers, without a fault of their own.
* `Container.Offends`: the fault of an entry behind others.
* `Container.ownFault_eq_some_iff`: the first fault among the entries of a container.
* `Container.validate_cons`: a container is checked before those below it, and these before those
  beside it.
* `Container.validate_outcome`: when a tree is valid, and what its fault is otherwise.
-/

namespace ResourceCompiler.Container

/-! ### Entries -/

/-- Whether no two entries share both kind and key, and all are of the kind that is declared for
them, if one is. -/
structure SoundEntries (declared : Option Kind) (rs : List Resource) : Prop where
  distinct : rs.Pairwise fun x r => ¬ (x.kind = r.kind ∧ x.key = r.key)
  ofKind : ∀ expected, declared = some expected → ∀ r ∈ rs, r.kind = expected

/-- Whether an entry has the kind and the key of one of those before it. -/
def Repeats (earlier : List Resource) (r : Resource) : Prop :=
  ∃ x ∈ earlier, x.kind = r.kind ∧ x.key = r.key

/-- The fault of an entry behind others of a container: that it repeats one of these, or else that
it is of another kind than the container declares. -/
inductive Offends (name : String) (declared : Option Kind) (earlier : List Resource)
    (r : Resource) : ContainerError → Prop
  | repeated (hold : Repeats earlier r) :
      Offends name declared earlier r (.duplicateKey name r.key)
  | foreign {expected : Kind} (hnew : ¬ Repeats earlier r) (hdeclared : declared = some expected)
      (hkind : r.kind ≠ expected) :
      Offends name declared earlier r (.kindMismatch name r.key expected r.kind)

variable {name : String} {declared : Option Kind} {earlier rs : List Resource} {r : Resource}
  {fault : ContainerError} {seen : List (Kind × Key)}

/-- An entry has one fault at most. -/
theorem Offends.unique {fault' : ContainerError} (h : Offends name declared earlier r fault)
    (h' : Offends name declared earlier r fault') : fault = fault' := by
  cases h with
  | repeated h =>
    cases h' with
    | repeated => rfl
    | foreign hnew => exact absurd h hnew
  | foreign hnew hdeclared =>
    cases h' with
    | repeated h => exact absurd h hnew
    | foreign _ hdeclared' =>
      rw [hdeclared] at hdeclared'
      rw [Option.some.inj hdeclared']

theorem SoundEntries.nil : SoundEntries declared [] :=
  ⟨List.Pairwise.nil, fun _ _ _ h => absurd h List.not_mem_nil⟩

theorem SoundEntries.of_append (h : SoundEntries declared (earlier ++ rs)) :
    SoundEntries declared earlier :=
  ⟨(List.pairwise_append.1 h.distinct).1, fun k hk x hx => h.ofKind k hk x
    (List.mem_append_left rs hx)⟩

/-- One more entry leaves no fault exactly if it has none itself. -/
theorem soundEntries_concat_iff (name : String) : SoundEntries declared (earlier ++ [r]) ↔
    SoundEntries declared earlier ∧ ¬ ∃ fault, Offends name declared earlier r fault := by
  constructor
  · intro h
    refine ⟨h.of_append, ?_⟩
    rintro ⟨fault, hfault⟩
    have hnew : ¬ Repeats earlier r := fun ⟨x, hx, hsame⟩ =>
      (List.pairwise_append.1 h.distinct).2.2 x hx r (List.mem_singleton_self r) hsame
    cases hfault with
    | repeated hold => exact hnew hold
    | foreign _ hdeclared hkind =>
      exact hkind (h.ofKind _ hdeclared r (List.mem_append_right _ (List.mem_singleton_self r)))
  · rintro ⟨h, hnone⟩
    have hnew : ¬ Repeats earlier r := fun hold => hnone ⟨_, .repeated hold⟩
    refine ⟨List.pairwise_append.2 ⟨h.distinct, List.pairwise_singleton _ _, ?_⟩, ?_⟩
    · intro x hx y hy hsame
      rw [List.mem_singleton.1 hy] at hsame
      exact hnew ⟨x, hx, hsame⟩
    · intro expected hdeclared x hx
      rcases List.mem_append.1 hx with hx | hx
      · exact h.ofKind expected hdeclared x hx
      · rw [List.mem_singleton.1 hx]
        exact by_contra fun hkind => hnone ⟨_, .foreign hnew hdeclared hkind⟩

/-- Whether the kinds and keys in a list are those of the given entries. -/
def Seen (seen : List (Kind × Key)) (earlier : List Resource) : Prop :=
  ∀ r : Resource, (r.kind, r.key) ∈ seen ↔ Repeats earlier r

theorem Seen.nil : Seen [] [] := fun _ =>
  iff_of_false List.not_mem_nil fun ⟨_, hx, _⟩ => List.not_mem_nil hx

theorem Seen.concat (h : Seen seen earlier) (r : Resource) :
    Seen ((r.kind, r.key) :: seen) (earlier ++ [r]) := by
  intro x
  rw [List.mem_cons, h x, Prod.mk.injEq]
  simp only [Repeats, List.mem_append, List.mem_singleton, or_and_right, exists_or, exists_eq_left]
  rw [or_comm, eq_comm (a := x.kind), eq_comm (a := x.key)]

theorem firstFault_of_offends (hseen : Seen seen earlier)
    (h : Offends name declared earlier r fault) :
    firstFault name declared seen (r :: rs) = some fault := by
  unfold firstFault
  cases h with
  | repeated hold => exact if_pos ((hseen r).2 hold)
  | foreign hnew hdeclared hkind =>
    rw [if_neg fun hold => hnew ((hseen r).1 hold), hdeclared]
    exact if_neg hkind

theorem firstFault_of_not_offends (hseen : Seen seen earlier)
    (h : ¬ ∃ fault, Offends name declared earlier r fault) :
    firstFault name declared seen (r :: rs) =
      firstFault name declared ((r.kind, r.key) :: seen) rs := by
  have hnew : ¬ Repeats earlier r := fun hold => h ⟨_, .repeated hold⟩
  rw [firstFault.eq_def]
  dsimp only
  rw [if_neg fun hold => hnew ((hseen r).1 hold)]
  cases hdeclared : declared with
  | none => rfl
  | some expected =>
    exact if_pos (by_contra fun hkind => h ⟨_, .foreign hnew hdeclared hkind⟩)

/-- **The first fault among entries** is that of the first entry that has one behind those before
it. -/
theorem firstFault_eq_some_iff (hseen : Seen seen earlier)
    (hearlier : SoundEntries declared earlier) :
    firstFault name declared seen rs = some fault ↔ ∃ front r later, rs = front ++ r :: later ∧
      SoundEntries declared (earlier ++ front) ∧
        Offends name declared (earlier ++ front) r fault := by
  induction rs generalizing seen earlier with
  | nil =>
    refine iff_of_false (fun h => by cases h) ?_
    rintro ⟨front, r, later, heq, -⟩
    exact List.append_ne_nil_of_right_ne_nil front (List.cons_ne_nil r later) heq.symm
  | cons x rs ih =>
    by_cases hx : ∃ fault, Offends name declared earlier x fault
    · obtain ⟨first, hfirst⟩ := hx
      rw [firstFault_of_offends hseen hfirst, Option.some.injEq]
      constructor
      · rintro rfl
        exact ⟨[], x, rs, rfl, by rwa [List.append_nil], by rwa [List.append_nil]⟩
      · rintro ⟨front, r, later, heq, hsound, hr⟩
        cases front with
        | nil =>
          obtain ⟨rfl, -⟩ := List.cons.inj heq
          rw [List.append_nil] at hr
          exact hfirst.unique hr
        | cons y front =>
          -- the entry would stand among those without a fault
          obtain ⟨rfl, -⟩ := List.cons.inj heq
          rw [List.append_cons] at hsound
          exact absurd ⟨_, hfirst⟩ ((soundEntries_concat_iff name).1 hsound.of_append).2
    · have hnext := (soundEntries_concat_iff name).2 ⟨hearlier, hx⟩
      rw [firstFault_of_not_offends hseen hx, ih (hseen.concat x) hnext]
      constructor
      · rintro ⟨front, r, later, rfl, hsound, hr⟩
        rw [List.append_assoc, List.singleton_append] at hsound hr
        exact ⟨x :: front, r, later, rfl, hsound, hr⟩
      · rintro ⟨front, r, later, heq, hsound, hr⟩
        cases front with
        | nil =>
          obtain ⟨rfl, -⟩ := List.cons.inj heq
          rw [List.append_nil] at hr
          exact absurd ⟨_, hr⟩ hx
        | cons y front =>
          obtain ⟨rfl, rfl⟩ := List.cons.inj heq
          exact ⟨front, r, later, rfl, by rwa [List.append_assoc], by rwa [List.append_assoc]⟩

theorem firstFault_eq_none_iff (hseen : Seen seen earlier)
    (hearlier : SoundEntries declared earlier) :
    firstFault name declared seen rs = none ↔ SoundEntries declared (earlier ++ rs) := by
  induction rs generalizing seen earlier with
  | nil => exact iff_of_true rfl (by rwa [List.append_nil])
  | cons x rs ih =>
    rw [List.append_cons]
    by_cases hx : ∃ fault, Offends name declared earlier x fault
    · obtain ⟨first, hfirst⟩ := hx
      rw [firstFault_of_offends hseen hfirst]
      refine iff_of_false (Option.some_ne_none _) fun hsound => ?_
      exact ((soundEntries_concat_iff name).1 hsound.of_append).2 ⟨_, hfirst⟩
    · rw [firstFault_of_not_offends hseen hx]
      exact ih (hseen.concat x) ((soundEntries_concat_iff name).2 ⟨hearlier, hx⟩)

/-! ### Containers -/

/-- Whether the entries that a container itself holds have no fault. -/
def Sound (c : Container) : Prop := SoundEntries c.declaredKind c.values

theorem ownFault_eq_none_iff {c : Container} : c.ownFault = none ↔ c.Sound := by
  rw [ownFault, firstFault_eq_none_iff Seen.nil SoundEntries.nil]
  exact Iff.rfl

theorem ownFault_eq_some_iff {c : Container} {fault : ContainerError} : c.ownFault = some fault ↔
    ∃ earlier r later, c.values = earlier ++ r :: later ∧ SoundEntries c.declaredKind earlier ∧
      Offends c.name c.declaredKind earlier r fault := by
  rw [ownFault, firstFault_eq_some_iff Seen.nil SoundEntries.nil]
  exact Iff.rfl

/-- A container is checked first, then those below it, then those beside it. -/
theorem validate_cons (c : Container) (cs : List Container) : validate (c :: cs) =
    (match c.ownFault with
    | some fault => .error fault
    | none => do
      validate c.nested
      validate cs) := by
  rw [validate, walkAll, walk_eq, List.cons_append, List.findSome?_cons]
  cases c.ownFault with
  | some fault => rfl
  | none =>
    rw [List.findSome?_append, validate, validate]
    cases (walkAll c.nested).findSome? ownFault with
    | some fault => rfl
    | none => rfl

/-- **Validation is exact.** Containers are checked depth first, each before those below it and
these before those beside it. They are valid if and only if in none of them, at any depth, two
entries share kind and key, and all entries of an object are of the kind that it declares. Otherwise
the fault is that of the first entry in the order of the walk that has one: that it repeats an entry
before it in its container, or else that it is of another kind. -/
theorem validate_outcome (cs : List Container) :
    (validate cs = .ok () ↔ ∀ c ∈ walkAll cs, c.Sound) ∧
    (∀ fault, validate cs = .error fault ↔ ∃ before c after, walkAll cs = before ++ c :: after ∧
      (∀ d ∈ before, d.Sound) ∧ ∃ earlier r later, c.values = earlier ++ r :: later ∧
        SoundEntries c.declaredKind earlier ∧ Offends c.name c.declaredKind earlier r fault) ∧
    ∀ c, validate (c :: cs) =
      (match c.ownFault with
      | some fault => .error fault
      | none => do
        validate c.nested
        validate cs) := by
  refine ⟨?_, fun fault => ?_, fun c => validate_cons c cs⟩
  · rw [validate_eq_ok_iff]
    exact forall₂_congr fun c _ => ownFault_eq_none_iff
  · have hfirst : validate cs = .error fault ↔ (walkAll cs).findSome? ownFault = some fault := by
      rw [validate]
      cases (walkAll cs).findSome? ownFault with
      | some other => rw [Except.error.injEq, Option.some.injEq]
      | none => exact iff_of_false (fun h => by cases h) fun h => by cases h
    simp only [hfirst, List.findSome?_eq_some_iff, ownFault_eq_some_iff, ownFault_eq_none_iff]
    constructor
    · rintro ⟨before, c, after, hwalk, hfault, hbefore⟩
      exact ⟨before, c, after, hwalk, hbefore, hfault⟩
    · rintro ⟨before, c, after, hwalk, hbefore, hfault⟩
      exact ⟨before, c, after, hwalk, hfault, hbefore⟩

/-- The fault of a container stands before that of one beside it. -/
example :
    let greeting : Resource := ⟨.strings, ⟨"greeting", by decide⟩, .empty⟩
    validate [node "app" .group [greeting] [
      node "app.strings" (.object .strings .plain .exported) [greeting, greeting] [],
      node "app.colors" (.object .colors .plain .exported) [greeting] []]] =
        .error (.duplicateKey "app.strings" greeting.key) := by decide

end ResourceCompiler.Container
