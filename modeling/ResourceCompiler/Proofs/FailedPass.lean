import ResourceCompiler.Proofs.Defaults
import ResourceCompiler.Proofs.FileTree.Removal
import ResourceCompiler.Proofs.Stages

/-!
# What a failed pass leaves

A pass that fails clears its output once more. Clearing works on the directories first and stops at
the first one that it cannot clear, so that metadata of an earlier pass can stay behind.

* `OutputPaths.clearDirectories`: the part of clearing that comes before the metadata.
* `OutputPaths.LeavesMetadata`, `OutputPaths.holds_clear_iff`: when clearing leaves metadata behind.
* `Configuration.execute_eq_error`: how far a failed pass got with its output.
* `Configuration.metadata_left_iff`: when a failed pass leaves metadata behind.
-/

namespace ResourceCompiler

open FileAction

variable {t s : FileTree}

/-! ### Clearing -/

namespace OutputPaths

/-- Removes the output directories and makes them again. -/
def clearDirectories (o : OutputPaths) : FileAction FileError (List Unit) :=
  each (fun d => do removeAll d; createDirectories d) o.directories

theorem clear_eq (o : OutputPaths) :
    o.clear = o.clearDirectories >>= fun _ => removeAll o.metadata := rfl

/-- Whether clearing leaves something at the place of the metadata: it stops at a directory while
the metadata is still there, or it gets to the metadata and cannot remove them. -/
def LeavesMetadata (o : OutputPaths) (t : FileTree) : Prop :=
  (∃ e u, o.clearDirectories.run t = (.error e, u) ∧ u.Holds o.metadata) ∨
    ∃ done u, o.clearDirectories.run t = (.ok done, u) ∧ u.Irremovable o.metadata

theorem holds_clear_iff (o : OutputPaths) (t : FileTree) :
    (o.clear.run t).2.Holds o.metadata ↔ o.LeavesMetadata t := by
  rw [clear_eq, run_bind, LeavesMetadata]
  cases hdirs : o.clearDirectories.run t with
  | mk r u =>
    cases r with
    | error e =>
      constructor
      · intro h
        exact .inl ⟨e, u, rfl, h⟩
      · rintro (⟨e', u', heq, h⟩ | ⟨done, u', heq, -⟩)
        · rwa [(Prod.mk.inj heq).2]
        · cases (Prod.mk.inj heq).1
    | ok done =>
      refine (holds_removeAll_iff u o.metadata).trans ⟨?_, ?_⟩
      · intro h
        exact .inr ⟨done, u, rfl, h⟩
      · rintro (⟨e', u', heq, -⟩ | ⟨done', u', heq, h⟩)
        · cases (Prod.mk.inj heq).1
        · rwa [(Prod.mk.inj heq).2]

end OutputPaths

/-! ### Failed passes -/

namespace Configuration

variable {c : Configuration} {f : StageFailure}

/-- A failed pass clears the tree that its stages left. -/
theorem run_eq_error (h : (c.run.run t).1 = .error f) :
    (c.execute.run t).1 = .error f ∧
      (c.run.run t).2 = (c.output.clear.run (c.execute.run t).2).2 := by
  rw [run_run] at h ⊢
  cases hexecute : c.execute.run t with
  | mk r s =>
    rw [hexecute] at h
    cases r with
    | ok => cases h
    | error failure => exact ⟨h, rfl⟩

/-- **How far a failed pass got with its output**: it changed nothing, or it stopped where it could
not clear its output, or it cleared its output. -/
theorem execute_eq_error (h : c.execute.run t = (.error f, s)) :
    s = t ∨ (∃ e, c.output.clear.run t = (.error e, s)) ∨ (c.output.clear.run t).1 = .ok () := by
  cases failure_of_execute h with
  | generators | linking => exact .inl rfl
  | clearing p h => exact .inr (.inl ⟨_, h⟩)
  | collecting p | building p | merging p | native p | holder p | storing p =>
    exact .inr (.inr (by rw [p.cleared_eq]))

/-- **What a failed pass leaves at the place of its metadata.** After a failure something is there
exactly when the last clearing leaves it there. This clearing works on the tree as it was, or as the
first clearing left it where that one failed, or as the pass left it after clearing it. -/
theorem metadata_left_iff (h : (c.run.run t).1 = .error f) :
    ∃ s, c.execute.run t = (.error f, s) ∧
      (s = t ∨ (∃ e, c.output.clear.run t = (.error e, s)) ∨ (c.output.clear.run t).1 = .ok ()) ∧
      ((c.run.run t).2.Holds c.output.metadata ↔ c.output.LeavesMetadata s) := by
  obtain ⟨hfail, hlast⟩ := run_eq_error h
  have hexecute : c.execute.run t = (.error f, (c.execute.run t).2) := Prod.ext hfail rfl
  refine ⟨_, hexecute, execute_eq_error hexecute, ?_⟩
  rw [hlast]
  exact c.output.holds_clear_iff _

end Configuration

/-! ### A file in the way -/

namespace Blocked

/-- The directory for native resources lies below a file. -/
def config : Configuration :=
  .ofDefaults ⟨⟨"jvmMain", by decide⟩, ⟨"jvm"⟩⟩ ⟨"sample", by decide⟩
    ⟨⟨"native/res"⟩, ⟨"out/assets"⟩, ⟨"out/src"⟩, ⟨"meta/metadata.json"⟩⟩

/-- Metadata from before. -/
def tree : FileTree where
  nodes := OrderedMap.ofList [(["native"], .file .empty), (["meta"], .directory),
    (["meta", "metadata.json"], .file .empty)]
  rooted := by decide +kernel

end Blocked

/-- Nothing can be cleared, and the metadata stay. -/
theorem metadata_left_blocked :
    (Blocked.config.run.run Blocked.tree).1 =
        .error ⟨.collect, .output ⟨"native/res"⟩ .notADirectory⟩ ∧
      (Blocked.config.run.run Blocked.tree).2.Holds Blocked.config.output.metadata := by
  have hfail : (Blocked.config.run.run Blocked.tree).1 =
      .error ⟨.collect, .output ⟨"native/res"⟩ .notADirectory⟩ := rfl
  obtain ⟨s, hs, -, hleft⟩ := Configuration.metadata_left_iff hfail
  have htree : Blocked.config.execute.run Blocked.tree =
      (.error ⟨.collect, .output ⟨"native/res"⟩ .notADirectory⟩, Blocked.tree) := rfl
  obtain rfl : Blocked.tree = s := (Prod.mk.inj (htree.symm.trans hs)).2
  exact ⟨hfail, hleft.2 (.inl ⟨.notADirectory, Blocked.tree, rfl, .file .empty, rfl⟩)⟩

end ResourceCompiler
