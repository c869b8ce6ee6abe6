import ResourceCompiler.Proofs.FileTree.Accepting
import ResourceCompiler.Proofs.FileTree.Locality

/-!
# Storing an artifact again

An artifact that is stored changes the directories that the way to its place leads through, the
place, and the file beside it. Where the directories are there already, storing it leaves the same
tree whatever the file beside the place was before.

* `Store.Settled`, `Store.settled_of_write`: where the artifact and the file beside it are.
* `Store.exists_write_again`: the same artifact stored where its directories stand.
-/

namespace ResourceCompiler

open FileAction FileTree

variable {s t u x : FileTree} {p : Path} {a : Artifact} {l : Location}

/-- Nothing happens where a directory with all that hold it is there already. -/
theorem run_createDirectories_of_isDirectory (h : p.text = "" ∨ t.stat p = .ok .directory) :
    (createDirectories p).run t = (.ok (), t) := by
  rw [createDirectories, createDirectoriesWith]
  by_cases hempty : p.text = ""
  · rw [if_pos hempty, run_pure]
  · have hstat := h.resolve_left hempty
    obtain ⟨k, hk, hdir⟩ := stat_eq_ok_iff.1 hstat
    obtain ⟨m, hm, hlong, hlocation⟩ := locateHolder_of_locate hk
    have hname := locateName_of_locateHolder hm hlong
    rw [← hlocation] at hname
    have hthere : t.createDirectory p = .error .alreadyExists := by
      have hsome : ¬ t.get? k = none := by
        rw [hdir]
        exact Option.some_ne_none _
      simp only [createDirectory, hname, bind, Except.bind, dif_neg hsome]
      rfl
    rw [if_neg hempty]
    simp only [FileAction.run, bind, FileAction.bind, attempt, change, hthere, ask,
      isDirectory_iff.2 hstat]
    rfl

/-- What is made on the way of the parent is on the way that the path goes on from. -/
theorem keepsAt_of_parent? {q : Path} (hq : p.parent? = some q) (h : t.Paved q s) (l : Location) :
    t.KeepsAt s l (p.Leaves l) := by
  rcases h l with hsame | ⟨hnone, hdir, hway⟩
  · exact .inl hsame
  · refine .inr ⟨hnone, hdir, Path.leaves_of_parent? hq ?_ hway⟩
    intro hnil
    obtain ⟨as, has, hl⟩ := hway
    rw [Path.strides_of_parent? hq, hnil] at has
    rw [← hl, List.prefix_nil.1 has] at hnone
    cases hnone

/-- What is made to hold a place is on the way that the path goes on from. -/
theorem keepsAt_of_createHolders {r : Except FileError Unit} (h : (createHolders p).run t = (r, s))
    (l : Location) : t.KeepsAt s l (p.Leaves l) := by
  rw [createHolders] at h
  split at h
  · rename_i parent hparent
    exact keepsAt_of_parent? hparent (paved_createDirectories h) l
  · obtain ⟨-, rfl⟩ := Prod.mk.inj h
    exact .refl t l _

/-- What holds a place is not made again where it is there. -/
theorem run_createHolders_again (h : (createHolders p).run t = (.ok (), u))
    (hkeeps : ∀ k, p.Leaves k → u.get? k = some .directory → x.get? k = some .directory)
    (hne : p.strides ≠ []) : (createHolders p).run x = (.ok (), x) := by
  rw [createHolders] at h ⊢
  split at h
  · rename_i parent hparent
    refine run_createDirectories_of_isDirectory ?_
    by_cases hempty : parent.text = ""
    · exact .inl hempty
    · have hstat := (run_createDirectoriesWith _ h).2 rfl hempty
      refine .inr (stat_of_through hstat fun k hk _ => ?_)
      have hdir : u.get? k = some .directory := by
        rcases get?_of_through hstat hk with hdir | ⟨-, hdir⟩
        · exact hdir
        · exact hdir
      rw [hkeeps k (Path.leaves_of_parent? hparent hne hk) hdir, hdir]
  · exact run_pure () x

namespace Store

/-- Where an artifact is stored: its place and the file beside it have names of their own in one
directory, and only the way to this directory is made. -/
structure Settled (t : FileTree) (p : Path) (s : FileTree) : Prop where
  beside : ∃ as name other, p.strides = as ++ [.down name] ∧
    (temporary p).strides = as ++ [.down other] ∧ ".json.tmp".toList <:+ other.toList
  get?_leaves : ∀ k, p.Leaves k → s.get? k = some .directory
  before : t.get? (temporary p).location ≠ some .directory
  after : s.get? (temporary p).location ≠ some .directory
  keepsAt : ∀ k, k ≠ p.location → k ≠ (temporary p).location → t.KeepsAt s k (p.Leaves k)

/-- Two names in one directory are reached from the same locations. -/
theorem leaves_iff_of_strides {q : Path} {as : List Path.Step} {b c : Path.Step}
    (hp : p.strides = as ++ [b]) (hq : q.strides = as ++ [c]) : p.Leaves l ↔ q.Leaves l := by
  have hleaves {q : Path} {c : Path.Step} (hq : q.strides = as ++ [c]) :
      q.Leaves l ↔ ∃ bs, bs <+: as ∧ bs.foldl Path.Step.from [] = l := by
    constructor
    · rintro ⟨bs, b, cs, hstrides, hl⟩
      refine ⟨bs, ?_, hl⟩
      have hprefix : bs <+: (bs ++ b :: cs).dropLast := by
        rw [List.dropLast_append_of_ne_nil (List.cons_ne_nil b cs)]
        exact List.prefix_append bs _
      rwa [← hstrides, hq, List.dropLast_concat] at hprefix
    · rintro ⟨bs, ⟨ds, rfl⟩, hl⟩
      cases ds with
      | nil => exact ⟨bs, c, [], by rw [hq, List.append_nil], hl⟩
      | cons d ds => exact ⟨bs, d, ds ++ [c], by rw [hq, List.append_assoc, List.cons_append], hl⟩
  rw [hleaves hp, hleaves hq]

/-- The four requests make the storing. -/
theorem run_write {u₁ u₂ u₃ : FileTree} (h₁ : (createHolders p).run t = (.ok (), u₁))
    (h₂ : u₁.truncate (temporary p) = .ok u₂)
    (h₃ : u₂.write (temporary p) a.text.toUTF8 = .ok u₃)
    (h₄ : u₃.rename (temporary p) p = .ok s) : (Store.write p a).run t = (.ok (), s) := by
  let report (x : Path × FileAction FileError Unit) : FileAction StoreError Unit :=
    x.2.mapError (StoreError.unwritable x.1)
  have hreport (place : Path) {request : FileAction FileError Unit} {t s : FileTree}
      (h : request.run t = (.ok (), s)) : (report (place, request)).run t = (.ok (), s) :=
    run_mapError_of_eq_ok h _
  have hstored : (each report (requests p a.text.toUTF8)).run t = (.ok [(), (), (), ()], s) :=
    run_each_cons_of_eq_ok (hreport p h₁) <|
      run_each_cons_of_eq_ok (hreport (temporary p) (run_change_ok h₂)) <|
        run_each_cons_of_eq_ok (hreport (temporary p) (run_change_ok h₃)) <|
          run_each_cons_of_eq_ok (hreport p (run_change_ok h₄)) (run_pure [] s)
  show (each report (requests p a.text.toUTF8) >>= fun _ => pure ()).run t = (.ok (), s)
  rw [run_bind_of_eq_ok hstored, run_pure]

/-- **Where an artifact is stored.** -/
theorem settled_of_write (h : (Store.write p a).run t = (.ok (), s)) : Settled t p s := by
  have hstored := stored_of_write h
  obtain ⟨as, name, other, hplace, hbeside, hext⟩ := strides_of_write h
  obtain ⟨u₁, u₂, u₃, hholders, htruncate, hwrite, hrename⟩ := run_requests h
  have hget := get?_rename (write_eq_ok hwrite).1.read_eq hrename
  refine ⟨⟨as, name, other, hplace, hbeside, hext⟩, fun k hk => ?_, ?_, ?_, fun k hk hk' => ?_⟩
  · obtain ⟨l, hl, -⟩ := stat_eq_ok_iff.1 (read_eq_ok_iff.1 hstored.read_eq)
    exact get?_of_leaves hl hk
  · exact hstored.beside.choose_spec.choose_spec.choose_spec.2.2
  · rw [hget, if_pos rfl]
    split
    · exact nofun
    · exact nofun
  · have hlate : s.get? k = u₁.get? k := by
      rw [hget, if_neg hk, if_neg hk', (gains_of_write hwrite).1.get?_of_ne hk',
        (gains_of_write htruncate).1.get?_of_ne hk']
    rw [KeepsAt, hlate]
    exact keepsAt_of_createHolders hholders k

/-- **An artifact stored again** where its directories stand leaves the same tree, whatever was
beside its place. -/
theorem exists_write_again (h : (Store.write p a).run t = (.ok (), s))
    (hleaves : ∀ k, p.Leaves k → x.get? k = some .directory)
    (hrest : ∀ k, k ≠ (temporary p).location → ¬ p.Leaves k → x.get? k = t.get? k)
    (hvacant : x.get? (temporary p).location ≠ some .directory) :
    ∃ s', (Store.write p a).run x = (.ok (), s') ∧ s'.Agree s := by
  obtain ⟨as, name, other, hplace, hbeside, -⟩ := strides_of_write h
  obtain ⟨u₁, u₂, u₃, hholders, htruncate, hwrite, hrename⟩ := run_requests h
  have hne : p.strides ≠ [] := by
    rw [hplace]
    exact List.append_ne_nil_of_right_ne_nil as (List.cons_ne_nil _ _)
  obtain ⟨hemptied, hfile, hvacant₁⟩ := gains_of_write htruncate
  obtain ⟨hslash, hlocate⟩ := locateFile_eq_ok hfile
  have hsame {k : Location} : p.Leaves k ↔ (temporary p).Leaves k :=
    leaves_iff_of_strides hplace hbeside
  -- with the directories made, only the file beside the place can be different
  have hbefore (k : Location) (hk : k ≠ (temporary p).location) : x.get? k = u₁.get? k := by
    by_cases hway : p.Leaves k
    · rw [hleaves k hway, get?_of_leaves hlocate (hsame.1 hway)]
    · rw [hrest k hk hway]
      rcases keepsAt_of_createHolders hholders k with hkept | ⟨-, -, hmade⟩
      · exact hkept.symm
      · exact absurd hmade hway
  have hfile' : x.locateFile (temporary p) = .ok (temporary p).location := by
    have hlocate' : x.locate (temporary p) = .ok (temporary p).location := by
      refine locate_of_through hlocate fun k hk hdir => ?_
      rw [hbefore k, hdir]
      intro heq
      exact hvacant₁ (heq ▸ hdir)
    simp only [locateFile, hslash, Bool.false_eq_true, if_false, hlocate']
  obtain ⟨x₂, htruncate', hemptied'⟩ := exists_write hfile' hvacant .empty
  have hagree₂ : AgreeOn (fun _ => True) u₂ x₂ := by
    intro k _
    rw [hemptied k, hemptied' k]
    split
    · rfl
    · rename_i hk
      exact (hbefore k (Ne.symm hk)).symm
  -- from here on the two trees hold the same
  have hholders' := run_createHolders_again hholders (x := x) (fun k hk _ => hleaves k hk) hne
  have hwithin (q : Path) : q.Within fun _ => True := fun _ _ => trivial
  obtain ⟨x₃, hwrite', hagree₃⟩ := (write_congr hagree₂ (hwithin _) _).exists_eq_ok hwrite
  obtain ⟨s', hrename', hagree⟩ :=
    (rename_congr hagree₃ (hwithin _) (hwithin p)).exists_eq_ok hrename
  exact ⟨s', run_write hholders' htruncate' hwrite' hrename', fun k => (hagree k trivial).symm⟩

end Store

end ResourceCompiler
