import ResourceCompiler.Proofs.FileTree.Writing
import ResourceCompiler.Proofs.Naming

/-!
# What storing an artifact leaves

An artifact that is stored can be read from its place, and the file beside the place, in which it
was completed, is gone again.

* `Store.Stored`, `Store.stored_of_write`: the tree after an artifact is stored.
-/

namespace ResourceCompiler.Store

open FileAction FileTree

variable {s t u : FileTree} {p : Path} {a : Artifact} {l : Location}

/-- The tree with a content stored at a place. -/
structure Stored (t : FileTree) (p : Path) (content : ByteArray) (s : FileTree) : Prop where
  read_eq : s.read p = .ok content
  /-- The file beside the place is in the same directory, and it is not a directory itself. -/
  beside : ∃ as name other, p.strides = as ++ [.down name] ∧
    (temporary p).strides = as ++ [.down other] ∧
    t.get? (temporary p).location ≠ some .directory
  keeps : t.KeepsDirectories s
  keepsAt : ∀ l, l ≠ p.location → l ≠ (temporary p).location →
    t.KeepsAt s l (p.Through l ∨ (temporary p).Through l)

theorem run_each_requests {content : ByteArray} {done : List Unit}
    (h : (each (fun (place, request) => request.mapError (StoreError.unwritable place))
      (requests p content)).run t = (.ok done, s)) :
    ∃ u₁ u₂ u₃, (createHolders p).run t = (.ok (), u₁) ∧ u₁.truncate (temporary p) = .ok u₂ ∧
      u₂.write (temporary p) content = .ok u₃ ∧ u₃.rename (temporary p) p = .ok s := by
  obtain ⟨⟨⟩, u₁, _, -, h₁, h⟩ := run_each_cons_eq_ok h
  obtain ⟨⟨⟩, u₂, _, -, h₂, h⟩ := run_each_cons_eq_ok h
  obtain ⟨⟨⟩, u₃, _, -, h₃, h⟩ := run_each_cons_eq_ok h
  obtain ⟨⟨⟩, u₄, _, -, h₄, h⟩ := run_each_cons_eq_ok h
  obtain ⟨-, rfl⟩ := run_pure_eq_ok h
  dsimp only at h₁ h₂ h₃ h₄
  have htruncate := run_change_eq_ok (run_mapError_eq_ok h₂)
  have hwrite := run_change_eq_ok (run_mapError_eq_ok h₃)
  have hrename := run_change_eq_ok (run_mapError_eq_ok h₄)
  exact ⟨u₁, u₂, u₃, run_mapError_eq_ok h₁, htruncate, hwrite, hrename⟩

/-- The requests that have been made when an artifact is stored. -/
theorem run_requests (h : (Store.write p a).run t = (.ok (), s)) :
    ∃ u₁ u₂ u₃, (createHolders p).run t = (.ok (), u₁) ∧ u₁.truncate (temporary p) = .ok u₂ ∧
      u₂.write (temporary p) a.text.toUTF8 = .ok u₃ ∧ u₃.rename (temporary p) p = .ok s := by
  obtain ⟨done, u, hu, h⟩ := run_bind_eq_ok h
  obtain ⟨-, rfl⟩ := run_pure_eq_ok h
  exact run_each_requests hu

/-- The place of an artifact and the file beside it have names in one directory. -/
theorem strides_of_write (h : (Store.write p a).run t = (.ok (), s)) :
    ∃ as name other, p.strides = as ++ [.down name] ∧
      (temporary p).strides = as ++ [.down other] ∧ ".json.tmp".toList <:+ other.toList := by
  obtain ⟨u₁, u₂, u₃, -, -, hwrite, -⟩ := run_requests h
  obtain ⟨-, -, other, hother⟩ := write_eq_ok hwrite
  obtain ⟨as, name, hplace, hbeside, hname⟩ := strides_temporary hother
  refine ⟨as, name, other, hplace, hbeside, ?_⟩
  rw [hname]
  exact List.suffix_append _ _

/-- Nothing is below a file, so that pruning it takes nothing else. -/
theorem get?_prune_file {c : ByteArray} (hl : t.get? l = some (.file c)) {k : Location}
    (hk : k ≠ l) : (t.prune l).get? k = t.get? k := by
  by_cases hroot : k = []
  · rw [hroot]
    rfl
  · rw [get?_prune t _ _ hroot]
    split
    · rename_i hpre
      by_contra hsome
      have hdir := get?_of_prefix (Ne.symm hsome) (List.isPrefixOf_iff_prefix.1 hpre) (Ne.symm hk)
      rw [hl] at hdir
      cases hdir
    · rfl

/-- **What storing leaves.** -/
theorem stored_of_write (h : (Store.write p a).run t = (.ok (), s)) :
    Stored t p a.text.toUTF8 s := by
  obtain ⟨as, name, other, hplace, hbeside, -⟩ := strides_of_write h
  obtain ⟨u₁, u₂, u₃, hholders, htruncate, hwrite, hrename⟩ := run_requests h
  have hpaved := paved_createHolders hholders
  have hemptied := (write_eq_ok htruncate).1
  have htemporary := hemptied.trans (write_eq_ok hwrite).1
  obtain ⟨c, hc, -, -, hmoved⟩ := rename_eq_ok hrename
  obtain rfl : a.text.toUTF8 = c := Except.ok.inj (htemporary.read_eq.symm.trans hc)
  have hvacant : t.get? (temporary p).location ≠ some .directory := fun hdir =>
    htemporary.vacant ((hpaved _).get?_of_some hdir)
  have hbefore (l : Location) (hl : l ≠ (temporary p).location) :
      t.KeepsAt u₃ l (p.Through l ∨ (temporary p).Through l) :=
    ((hpaved l).mono .inl).trans ((htemporary.keepsAt l hl).mono .inr)
  refine ⟨?_, ⟨as, name, other, hplace, hbeside, hvacant⟩, fun l hdir => ?_, fun l hp hl => ?_⟩
  · rcases hmoved with ⟨rfl, hsame, hlocate⟩ | hmoved
    · refine read_eq_ok_iff.2 (stat_eq_ok_iff.2 ⟨_, hlocate, ?_⟩)
      rw [hsame]
      exact htemporary.get?_location
    · exact (write_eq_ok hmoved).1.read_eq
  · have hlate := htemporary.keeps l ((hpaved l).get?_of_some hdir)
    rcases hmoved with ⟨rfl, -, -⟩ | hmoved
    · exact hlate
    · have hne : l ≠ (temporary p).location := by
        intro heq
        rw [heq] at hdir
        exact hvacant hdir
      refine (write_eq_ok hmoved).1.keeps l ?_
      rw [get?_prune_file htemporary.get?_location hne, hlate]
  · rcases hmoved with ⟨rfl, -, -⟩ | hmoved
    · exact hbefore l hl
    · have hpruned := get?_prune_file htemporary.get?_location hl
      have hlast := ((write_eq_ok hmoved).1.keepsAt l hp).mono
        (Or.inl : _ → p.Through l ∨ (temporary p).Through l)
      rw [KeepsAt, hpruned] at hlast
      exact (hbefore l hl).trans hlast

end ResourceCompiler.Store
