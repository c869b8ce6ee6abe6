import ResourceCompiler.FileTree.Action

/-!
# How actions run

An action that is made of others comes apart where it is run: it fails in one of its parts, or all
of them succeed one after the other.

* `FileAction.run_bind_eq_ok`, `FileAction.run_bind_eq_error`: an action and what follows it.
* `FileAction.run_bind_of_eq_ok`: an action that succeeds in front of what follows it.
* `FileAction.run_each_cons_eq_ok`, `FileAction.run_each_eq_error`: an action for the elements of a
  list.
-/

namespace ResourceCompiler.FileAction

variable {ε δ α β : Type} {s t : FileTree}

theorem run_bind_eq_ok {x : FileAction ε α} {f : α → FileAction ε β} {b : β}
    (h : (x >>= f).run t = (.ok b, s)) :
    ∃ a u, x.run t = (.ok a, u) ∧ (f a).run u = (.ok b, s) := by
  rw [run_bind] at h
  split at h
  · rename_i a u hx
    exact ⟨a, u, hx, h⟩
  · cases (Prod.mk.inj h).1

/-- An action that succeeds makes way for what follows it. -/
theorem run_bind_of_eq_ok {x : FileAction ε α} {a : α} (h : x.run t = (.ok a, s))
    (f : α → FileAction ε β) : (x >>= f).run t = (f a).run s := by
  rw [run_bind, h]

theorem run_bind_eq_error {x : FileAction ε α} {f : α → FileAction ε β} {e : ε}
    (h : (x >>= f).run t = (.error e, s)) :
    x.run t = (.error e, s) ∨ ∃ a u, x.run t = (.ok a, u) ∧ (f a).run u = (.error e, s) := by
  rw [run_bind] at h
  split at h
  · rename_i a u hx
    exact .inr ⟨a, u, hx, h⟩
  · rename_i e' u hx
    obtain ⟨he, rfl⟩ := Prod.mk.inj h
    rw [Except.error.inj he] at hx
    exact .inl hx

theorem run_pure_eq_ok {a b : α} (h : (pure a : FileAction ε α).run t = (.ok b, s)) :
    a = b ∧ t = s := by
  obtain ⟨ha, ht⟩ := Prod.mk.inj h
  exact ⟨Except.ok.inj ha, ht⟩

theorem run_mapError (g : ε → δ) (x : FileAction ε α) (t : FileTree) :
    (x.mapError g).run t = ((x.run t).1.mapError g, (x.run t).2) := by
  simp only [FileAction.run, mapError]
  cases x t with
  | mk r s => cases r <;> rfl

theorem run_mapError_eq_error {x : FileAction ε α} {g : ε → δ} {e : δ}
    (h : (x.mapError g).run t = (.error e, s)) : ∃ e', g e' = e ∧ x.run t = (.error e', s) := by
  rw [FileAction.run, mapError] at h
  split at h
  · cases h
  · rename_i e' u hx
    obtain ⟨he, rfl⟩ := Prod.mk.inj h
    exact ⟨e', Except.error.inj he, hx⟩

theorem run_mapError_eq_ok {x : FileAction ε α} {g : ε → δ} {a : α}
    (h : (x.mapError g).run t = (.ok a, s)) : x.run t = (.ok a, s) := by
  rw [FileAction.run, mapError] at h
  split at h
  · rename_i a' u hx
    obtain ⟨ha, rfl⟩ := Prod.mk.inj h
    rw [Except.ok.inj ha] at hx
    exact hx
  · cases h

theorem run_mapError_of_eq_ok {x : FileAction ε α} {a : α} (h : x.run t = (.ok a, s))
    (g : ε → δ) : (x.mapError g).run t = (.ok a, s) := by
  rw [FileAction.run] at h
  simp only [FileAction.run, mapError, h]

theorem run_ofExcept (r : Except ε α) (t : FileTree) : (ofExcept r).run t = (r, t) := by
  cases r <;> rfl

theorem run_ofExcept_eq {r r' : Except ε α} (h : (ofExcept r).run t = (r', s)) :
    r = r' ∧ t = s := by
  rw [run_ofExcept] at h
  exact Prod.mk.inj h

theorem run_ofExcept_of_eq_ok {r : Except ε α} {a : α} (h : r = .ok a) (t : FileTree) :
    (ofExcept r).run t = (.ok a, t) := by
  rw [run_ofExcept, h]

theorem run_examine_of_eq_ok {f : FileTree → Except ε α} {a : α} (h : f t = .ok a) :
    (examine f).run t = (.ok a, t) :=
  Prod.ext h rfl

theorem run_examine_eq {f : FileTree → Except ε α} {r : Except ε α}
    (h : (examine f).run t = (r, s)) : f t = r ∧ t = s :=
  Prod.mk.inj h

theorem run_change_ok {f : FileTree → Except ε FileTree} (h : f t = .ok s) :
    (change f).run t = (.ok (), s) := by
  simp only [FileAction.run, change, h]

theorem run_change_error {f : FileTree → Except ε FileTree} {e : ε} (h : f t = .error e) :
    (change f).run t = (.error e, t) := by
  simp only [FileAction.run, change, h]

theorem run_change_eq_ok {f : FileTree → Except ε FileTree}
    (h : (change f).run t = (.ok (), s)) : f t = .ok s := by
  rw [FileAction.run, change] at h
  split at h
  · rename_i u hu
    obtain ⟨-, rfl⟩ := Prod.mk.inj h
    exact hu
  · cases (Prod.mk.inj h).1

/-- An action that is found to succeed leaves the tree that it is found to leave. -/
theorem run_eq_of_isOk {x : FileAction ε Unit} (h : (x.run t).1.isOk = true) :
    x.run t = (.ok (), (x.run t).2) := by
  cases hx : (x.run t).1 with
  | error e => rw [hx] at h; cases h
  | ok u => exact Prod.ext hx rfl

/-- An action that is found to give a value leaves the tree that it is found to leave. -/
theorem run_eq_of_fst {x : FileAction ε α} {a : α} (h : (x.run t).1 = .ok a) :
    x.run t = (.ok a, (x.run t).2) :=
  Prod.ext h rfl

/-- An action succeeds for all elements of a list when it does for the first and for the others. -/
theorem run_each_cons_eq_ok {f : α → FileAction ε β} {a : α} {as : List α} {bs : List β}
    (h : (each f (a :: as)).run t = (.ok bs, s)) :
    ∃ b u rest, bs = b :: rest ∧ (f a).run t = (.ok b, u) ∧
      (each f as).run u = (.ok rest, s) := by
  obtain ⟨b, u, hb, h⟩ := run_bind_eq_ok h
  obtain ⟨rest, v, hrest, h⟩ := run_bind_eq_ok h
  obtain ⟨hbs, rfl⟩ := run_pure_eq_ok h
  exact ⟨b, u, rest, hbs.symm, hb, hrest⟩

/-- An action for the elements of a list fails at one of them. -/
theorem run_each_eq_error {f : α → FileAction ε β} {as : List α} {e : ε}
    (h : (each f as).run t = (.error e, s)) : ∃ a ∈ as, ∃ u, (f a).run u = (.error e, s) := by
  induction as generalizing t with
  | nil => cases h
  | cons a as ih =>
    rcases run_bind_eq_error h with h | ⟨b, u, -, h⟩
    · exact ⟨a, List.mem_cons_self, t, h⟩
    rcases run_bind_eq_error h with h | ⟨bs, v, -, h⟩
    · obtain ⟨d, hd, hfail⟩ := ih h
      exact ⟨d, List.mem_cons_of_mem a hd, hfail⟩
    · cases h

/-- The elements of two lists one after the other. -/
theorem run_each_append_eq_ok {f : α → FileAction ε β} {as bs : List α} {cs : List β}
    (h : (each f (as ++ bs)).run t = (.ok cs, s)) :
    ∃ first u second, (each f as).run t = (.ok first, u) ∧ (each f bs).run u = (.ok second, s) := by
  induction as generalizing t cs with
  | nil => exact ⟨[], t, cs, rfl, h⟩
  | cons a as ih =>
    obtain ⟨b, u, rest, -, ha, hrest⟩ := run_each_cons_eq_ok h
    obtain ⟨first, v, second, hfirst, hsecond⟩ := ih hrest
    refine ⟨b :: first, v, second, ?_, hsecond⟩
    rw [each, run_bind_of_eq_ok ha, run_bind_of_eq_ok hfirst, run_pure]

theorem run_each_cons_of_eq_ok {f : α → FileAction ε β} {a : α} {as : List α} {b : β}
    {bs : List β} {u : FileTree} (h : (f a).run t = (.ok b, u))
    (hrest : (each f as).run u = (.ok bs, s)) : (each f (a :: as)).run t = (.ok (b :: bs), s) := by
  rw [each, run_bind_of_eq_ok h, run_bind_of_eq_ok hrest, run_pure]

end ResourceCompiler.FileAction
