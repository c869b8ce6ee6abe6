import ResourceCompiler.Proofs.FileTree.Clearing
import ResourceCompiler.Proofs.FileTree.Running

/-!
# Actions that keep to their places

An action keeps to its places when everything else stays as it is, whether the action succeeds or
stops anywhere. Directories that are missing on its way may be made. Actions made of such actions
keep to their places as well, so that it is enough to look at the single requests.

* `FileAction.Confined`: actions that keep to their places.
* `FileAction.Confined.bind`, `FileAction.Confined.each`: actions made of others.
* `confined_createDirectories`, `confined_removeAll`, `confined_write`, `confined_copyFile`:
  requests.
-/

namespace ResourceCompiler

open FileTree

namespace FileAction

variable {ε δ α β : Type} {owned way : Location → Prop}

/-- Whether an action leaves everything as it is that it does not own, but for missing directories
that it makes on its way. This includes what it does before it fails. -/
def Confined (owned way : Location → Prop) (x : FileAction ε α) : Prop :=
  ∀ (t : FileTree) (l : Location), ¬ owned l → t.KeepsAt (x.run t).2 l (way l)

namespace Confined

/-! ### Actions made of others -/

/-- An action that never changes a tree. -/
theorem of_snd_eq {x : FileAction ε α} (h : ∀ t, (x.run t).2 = t) : Confined owned way x := by
  intro t l _
  rw [h t]
  exact .refl t l _

theorem pure (a : α) : Confined owned way (Pure.pure a : FileAction ε α) :=
  of_snd_eq fun _ => rfl

theorem fail (e : ε) : Confined owned way (FileAction.fail e : FileAction ε α) :=
  of_snd_eq fun _ => rfl

theorem ofExcept (r : Except ε α) : Confined owned way (FileAction.ofExcept r) :=
  of_snd_eq fun t => by rw [run_ofExcept]

theorem ask (f : FileTree → α) : Confined owned way (FileAction.ask f : FileAction ε α) :=
  of_snd_eq fun _ => rfl

theorem examine (f : FileTree → Except ε α) : Confined owned way (FileAction.examine f) :=
  of_snd_eq fun _ => rfl

/-- A single request changes nothing when it fails. -/
theorem change {f : FileTree → Except FileError FileTree}
    (hf : ∀ t s, f t = .ok s → ∀ l, ¬ owned l → t.KeepsAt s l (way l)) :
    Confined owned way (FileAction.change f) := by
  intro t l hl
  rcases snd_run_change f t with hok | ⟨-, hsame⟩
  · exact hf t _ hok l hl
  · rw [hsame]
    exact .refl t l _

/-- What comes behind an action has to keep to its places for the values only that the action can
give. -/
theorem bind_of_run {x : FileAction ε α} {f : α → FileAction ε β} (hx : Confined owned way x)
    (hf : ∀ t a u, x.run t = (.ok a, u) → Confined owned way (f a)) :
    Confined owned way (x >>= f) := by
  intro t l hl
  have hfirst := hx t l hl
  rw [run_bind]
  cases hrun : x.run t with
  | mk r u =>
    rw [hrun] at hfirst
    cases r with
    | ok a => exact hfirst.trans (hf t a u hrun u l hl)
    | error e => exact hfirst

theorem bind {x : FileAction ε α} {f : α → FileAction ε β} (hx : Confined owned way x)
    (hf : ∀ a, Confined owned way (f a)) : Confined owned way (x >>= f) :=
  hx.bind_of_run fun _ a _ _ => hf a

theorem mapError {x : FileAction ε α} (hx : Confined owned way x) (g : ε → δ) :
    Confined owned way (x.mapError g) := by
  intro t l hl
  have hsame : ((x.mapError g).run t).2 = (x.run t).2 := by
    show (FileAction.mapError g x t).2 = (x t).2
    unfold FileAction.mapError
    cases x t with
    | mk r u => cases r <;> rfl
  rw [hsame]
  exact hx t l hl

theorem attempt {x : FileAction ε α} (hx : Confined owned way x) :
    Confined owned way (x.attempt : FileAction δ (Except ε α)) :=
  fun t l hl => hx t l hl

theorem ifPresent {x : FileAction FileError Unit} (hx : Confined owned way x) :
    Confined owned way (ResourceCompiler.ifPresent x) := by
  intro t l hl
  rw [snd_run_ifPresent]
  exact hx t l hl

/-- What holds of an action for every element of a list holds of all of them together. -/
theorem each {f : α → FileAction ε β} {as : List α} (hf : ∀ a ∈ as, Confined owned way (f a)) :
    Confined owned way (FileAction.each f as) := by
  induction as with
  | nil => exact .pure []
  | cons a as ih =>
    refine .bind (hf a List.mem_cons_self) ?_
    intro b
    refine .bind (ih fun x hx => hf x (List.mem_cons_of_mem a hx)) ?_
    intro bs
    exact .pure (b :: bs)

end Confined

end FileAction

open FileAction

/-! ### Requests -/

variable {owned way : Location → Prop} {p q : Path}

/-- Directories are made on the way of their path only, which may lead through what is owned. -/
theorem confined_createDirectories (hway : ∀ l, p.Through l → owned l ∨ way l) :
    Confined owned way (createDirectories p) := by
  intro t l hl
  have hpaved : t.Paved p ((createDirectories p).run t).2 := paved_createDirectories rfl
  exact (hpaved l).mono fun h => (hway l h).resolve_left hl

theorem confined_createHolders (hway : ∀ l, p.Through l → owned l ∨ way l) :
    Confined owned way (createHolders p) := by
  intro t l hl
  have hpaved : t.Paved p ((createHolders p).run t).2 := paved_createHolders rfl
  exact (hpaved l).mono fun h => (hway l h).resolve_left hl

theorem confined_write (hp : owned p.location) (content : ByteArray) :
    Confined owned way (change fun t => t.write p content) := by
  refine .change ?_
  intro t s hs l hl
  refine .inl ((gains_of_write hs).1.get?_of_ne ?_)
  rintro rfl
  exact hl hp

theorem confined_copyFile (hp : owned p.location) (source : Path) :
    Confined owned way (copyFile source p) := by
  refine .bind (.examine _) fun _ => ?_
  refine .bind (confined_write hp _) fun _ => ?_
  refine .bind (.examine _) fun content => ?_
  exact confined_write hp content

/-- What is not at or below the end of a path stays when that is removed. -/
theorem get?_removeAll {t : FileTree} {l : Location} (hl : ¬ p.location <+: l) :
    ((removeAll p).run t).2.get? l = t.get? l := by
  cases hdir : t.isDirectory p with
  | true =>
    have hstat := isDirectory_iff.1 hdir
    have hcleared := cleared_emptied (get?_of_stat hstat)
    rw [run_removeAll_of_isDirectory hdir, snd_run_ifPresent, run_removeTree hstat,
      snd_run_ifPresent]
    rcases snd_run_change (fun t => t.removeDirectory p) (t.emptied p.location) with
      hok | ⟨-, hsame⟩
    · obtain ⟨hpruned, -, hne⟩ := removeDirectory_eq_ok hok
      rw [hpruned]
      exact (cleared_prune hne hcleared.get?_apart).get?_apart l hl
    · rw [hsame]
      exact hcleared.get?_apart l hl
  | false =>
    rw [run_removeAll_of_not_isDirectory hdir, snd_run_ifPresent]
    rcases snd_run_change (fun t => t.removeFile p) t with hok | ⟨-, hsame⟩
    · obtain ⟨hpruned, -, hne⟩ := removeFile_eq_ok hok
      rw [hpruned]
      exact (cleared_prune hne fun _ _ => rfl).get?_apart l hl
    · rw [hsame]

theorem confined_removeAll (hp : ∀ l, p.location <+: l → owned l) :
    Confined owned way (removeAll p) := by
  intro t l hl
  refine .inl (get?_removeAll ?_)
  intro hprefix
  exact hl (hp l hprefix)

end ResourceCompiler
