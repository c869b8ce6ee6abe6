import ResourceCompiler.Proofs.Metadata.Restoring
import ResourceCompiler.Proofs.Metadata.RoundTrip
import ResourceCompiler.Proofs.Metadata.Writers

/-!
# What a reader finds while an artifact is stored

Storing an artifact may be cut off anywhere. Whatever has happened until then, its place is as it
was before or holds the whole artifact. There is one more case, which comes before everything else:
the directories that a path leads through are made, and a path may lead through its own end.

* `Making`: the trees through which a directory with all that hold it is made.
* `Call.Interim`: the trees through which an artifact is stored.
* `Call.Interim.place_cases`: what is at the place in each of them.
* `Call.atomic`: what a reader finds there, and what is left when the artifact is stored.
-/

namespace ResourceCompiler

open FileTree

variable {s t u : FileTree} {p q : Path}

/-- The trees through which a directory with all that hold it is made. What holds it is only made
where it is missing. -/
inductive Making : Nat → Path → FileTree → FileTree → Prop
  | before (fuel : Nat) (p : Path) (t : FileTree) : Making fuel p t t
  | holders {fuel : Nat} {p parent : Path} {t s : FileTree} (hp : p.text ≠ "")
      (hmissing : t.createDirectory p = .error .notFound) (hparent : p.parent? = some parent)
      (h : Making fuel parent t s) : Making (fuel + 1) p t s
  | after (fuel : Nat) (p : Path) (t : FileTree) :
      Making fuel p t ((createDirectoriesWith fuel p).run t).2

/-- On all of the way only directories are made, and only on the way of the path. -/
theorem Making.paved {fuel : Nat} (h : Making fuel p t s) : t.Paved p s := by
  induction h with
  | before fuel p t => exact .refl t p
  | holders _ _ hparent _ ih => exact ih.of_parent? hparent
  | after fuel p t => exact (run_createDirectoriesWith fuel rfl).1

namespace Store

/-- The trees through which an artifact is stored: its directories are made, and then the call takes
its steps, with pieces of any size. -/
inductive Call.Interim (c : Call) (t : FileTree) : FileTree → Prop
  | making {parent : Path} {s : FileTree} (hparent : c.path.parent? = some parent)
      (h : Making (parent.components.length + 1) parent t s) : c.Interim t s
  | running {u : FileTree} (h : (createHolders c.path).run t = (.ok (), u))
      (schedule : List (Unit × Nat)) :
      c.Interim t (Progress.run (fun _ => c) (.start u) schedule).tree

namespace Call

variable {c : Call}

theorem apart_alone (c : Call) : Apart fun _ : Unit => c :=
  ⟨fun i j hne => absurd (Subsingleton.elim i j) hne,
    fun i j hne => absurd (Subsingleton.elim i j) hne,
    fun i j hne => absurd (Subsingleton.elim i j) hne⟩

/-- What is true of a call that runs alone, at every time. -/
theorem consistent_alone (c : Call) (u : FileTree) (schedule : List (Unit × Nat)) :
    Consistent (fun _ => c) u (Progress.run (fun _ => c) (.start u) schedule) :=
  (Consistent.start _ u).run c.apart_alone schedule

/-- What a call that runs alone leaves when it succeeds. -/
theorem left_of_ended {schedule : List (Unit × Nat)}
    (h : (Progress.run (fun _ => c) (.start u) schedule).phase () = .ended (.ok ())) :
    (Progress.run (fun _ => c) (.start u) schedule).tree.read c.path = .ok c.content ∧
      (Progress.run (fun _ => c) (.start u) schedule).tree.stat c.temporary =
        .error .notFound := by
  have hconsistent := consistent_alone c u schedule
  have hholds := hconsistent.holds ()
  rw [h] at hholds
  obtain ⟨hserved, hread, hgone⟩ := hholds
  exact ⟨hread, (hconsistent.same.accepts_iff.2 hserved.temporary).stat_eq_error hgone⟩

/-- **The place of an artifact** is never seen with a part of it. -/
theorem Interim.place_cases (h : c.Interim t s) :
    t.KeepsAt s c.path.location (c.path.Leaves c.path.location) ∨
      s.read c.path = .ok c.content := by
  cases h with
  | making hparent h => exact .inl (keepsAt_of_parent? hparent h.paved _)
  | @running u h schedule =>
    have hmade := keepsAt_of_createHolders h c.path.location
    by_cases hended : (Progress.run (fun _ => c) (.start u) schedule).phase () = .ended (.ok ())
    · exact .inr (left_of_ended hended).1
    · have hkept := (consistent_alone c u schedule).kept c.path.location
        (fun _ haccepts => (temporary_ne haccepts).symm) (fun _ hphase => absurd hphase hended)
      rw [KeepsAt, hkept]
      exact .inl hmade

/-- Storing an artifact leaves one of the trees through which it is stored. -/
theorem interim_of_run {r : Except StoreError Unit}
    (h : (Store.write c.path c.artifact).run t = (r, s)) : c.Interim t s := by
  cases hholders : (createHolders c.path).run t with
  | mk made u =>
    cases made with
    | ok =>
      obtain ⟨r', -, hrun⟩ := Progress.run_alone c hholders
      rw [h] at hrun
      rw [(Prod.mk.inj hrun).2]
      exact .running hholders _
    | error e =>
      have hfailed := Progress.run_write_eq_error c hholders
      rw [h] at hfailed
      rw [(Prod.mk.inj hfailed).2]
      rw [createHolders] at hholders
      split at hholders
      · rename_i parent hparent
        have hafter := Making.after (parent.components.length + 1) parent t
        rw [← createDirectories, hholders] at hafter
        exact .making hparent hafter
      · cases hholders

theorem left_of_run (h : (Store.write c.path c.artifact).run t = (.ok (), s)) :
    s.read c.path = .ok c.content ∧ s.stat c.temporary = .error .notFound := by
  obtain ⟨u, -, -, hholders, -⟩ := run_requests h
  obtain ⟨r, hended, hrun⟩ := Progress.run_alone c hholders
  rw [h] at hrun
  obtain ⟨hr, hs⟩ := Prod.mk.inj hrun
  rw [← hr] at hended
  rw [hs]
  exact left_of_ended hended

/-- A sound artifact is read from a file that holds its text. -/
theorem read_of_content (hread : s.read c.path = .ok c.content)
    (hvalid : c.artifact.validate = .ok ())
    (hdepth : c.artifact.toJson.depth ≤ Json.maxDepth) :
    Store.read c.path s = .ok c.artifact := by
  have htext : s.readText c.path = .ok c.artifact.text := readText_of_read hread
  simp only [Store.read, htext, mapError_ok, bind, Except.bind,
    Artifact.ofText?_text_of_validate hvalid hdepth]

/-- **Storing an artifact is atomic for readers**, wherever it is cut off: the place is as it was,
or it holds the whole artifact, which is read if it is sound, or nothing was there and the path
leads through its own end, where a directory has been made. When the artifact is stored, the file
beside the place is gone. -/
theorem atomic (c : Call) (t : FileTree) :
    (∀ s, c.Interim t s →
      s.get? c.path.location = t.get? c.path.location ∨
      (s.read c.path = .ok c.content ∧
        (c.artifact.validate = .ok () → c.artifact.toJson.depth ≤ Json.maxDepth →
          Store.read c.path s = .ok c.artifact)) ∨
      (t.get? c.path.location = none ∧ s.get? c.path.location = some .directory ∧
        c.path.Leaves c.path.location)) ∧
    ∀ r s, (Store.write c.path c.artifact).run t = (r, s) →
      c.Interim t s ∧
        (r = .ok () → s.read c.path = .ok c.content ∧ s.stat c.temporary = .error .notFound) := by
  refine ⟨?_, ?_⟩
  · intro s hinterim
    rcases hinterim.place_cases with hkept | hread
    · rcases hkept with hsame | hmade
      · exact .inl hsame
      · exact .inr (.inr hmade)
    · exact .inr (.inl ⟨hread, read_of_content hread⟩)
  · intro r s hrun
    refine ⟨interim_of_run hrun, ?_⟩
    rintro rfl
    exact left_of_run hrun

/-- An artifact for a place that holds something else. -/
def lantern : Call := ⟨⟨"pier/lamp.json"⟩, .ofContainers ⟨"lanternMain", by decide⟩ "common" []⟩

def pier : FileTree :=
  ((do createDirectories ⟨"pier"⟩; FileAction.change fun t => t.write ⟨"pier/lamp.json"⟩ .empty :
    FileAction FileError Unit).run .empty).2

/-- The first bytes are written. -/
def halfway : Progress Unit := .run (fun _ => lantern) (.start pier) [((), 0), ((), 20)]

theorem atomic_lantern :
    lantern.Interim pier halfway.tree ∧
      (halfway.tree.get? lantern.path.location = pier.get? lantern.path.location ∨
        (halfway.tree.read lantern.path = .ok lantern.content ∧
          (lantern.artifact.validate = .ok () → lantern.artifact.toJson.depth ≤ Json.maxDepth →
            Store.read lantern.path halfway.tree = .ok lantern.artifact)) ∨
        (pier.get? lantern.path.location = none ∧
          halfway.tree.get? lantern.path.location = some .directory ∧
          lantern.path.Leaves lantern.path.location)) ∧
      ∃ s, (Store.write lantern.path lantern.artifact).run pier = (.ok (), s) ∧
        s.read lantern.path = .ok lantern.content ∧
        s.stat lantern.temporary = .error .notFound := by
  have hholders : (createHolders lantern.path).run pier = (.ok (), pier) := rfl
  have hhalfway : lantern.Interim pier halfway.tree := .running hholders _
  have hserved : lantern.Served pier :=
    ⟨⟨by decide +kernel, by decide +kernel, by decide +kernel⟩,
      ⟨by decide +kernel, by decide +kernel, by decide +kernel⟩⟩
  obtain ⟨s, hs⟩ := (exists_write_iff hholders).2 hserved
  obtain ⟨hinterim, hrun⟩ := atomic lantern pier
  obtain ⟨-, hstored⟩ := hrun (.ok ()) s hs
  exact ⟨hhalfway, hinterim halfway.tree hhalfway, s, hs, hstored rfl⟩

/-- An artifact for a place that its own path leads through. -/
def roundabout : Call :=
  ⟨⟨"a/../a"⟩, ⟨⟨"roundMain", by decide⟩, "common", ⟨"r"⟩, []⟩⟩

/-- **A path may lead through its own end.** There, where nothing was, is then a directory. -/
theorem not_atomic_roundabout :
    roundabout.path.fileName? = some "a" ∧
      roundabout.Interim .empty ((createHolders roundabout.path).run .empty).2 ∧
      FileTree.empty.get? roundabout.path.location = none ∧
      ((createHolders roundabout.path).run .empty).2.get? roundabout.path.location =
        some .directory ∧
      ((createHolders roundabout.path).run .empty).2.read roundabout.path =
        .error .isADirectory := by
  have hholders : (createHolders roundabout.path).run .empty =
      (.ok (), ((createHolders roundabout.path).run .empty).2) := rfl
  exact ⟨by decide +kernel, .running hholders [], by decide +kernel, by decide +kernel,
    by decide +kernel⟩

end Call

end Store

end ResourceCompiler
