import ResourceCompiler.Pass.Run
import ResourceCompiler.Proofs.FileTree.Running
import ResourceCompiler.Proofs.Sequence

/-!
# The stages of a pass

A pass succeeds exactly if its stages do, one after the other, and fails with the first one that
does.

* `Configuration.Course`: what the stages of a successful pass find and make.
* `Configuration.Failure`: how a pass fails, and the tree it leaves before it clears its output
  again.
* `Configuration.outcome_of_execute`: a pass has a course or a failure.
* `Configuration.exists_course_of_run`, `Configuration.Course.run_eq`: successful passes have one.
* `Configuration.run_eq_of_own`: a pass over its own source set alone.
-/

namespace ResourceCompiler

open FileAction

variable {c : Configuration} {outcome : Outcome} {f : StageFailure} {s t : FileTree}

/-! ### One stage -/

namespace Stage

variable {ε α β : Type} {stage : Stage} {cause : ε → PassError}
  {next : α → FileAction StageFailure β} {r : Except StageFailure β}

/-- A stage fails with its cause, or makes way for what follows it. -/
theorem run_perform_bind_iff {x : FileAction ε α} :
    (stage.perform cause x >>= next).run t = (r, s) ↔
      (∃ e, x.run t = (.error e, s) ∧ .error ⟨stage, cause e⟩ = r) ∨
        ∃ a u, x.run t = (.ok a, u) ∧ (next a).run u = (r, s) := by
  rw [run_bind, perform, run_mapError]
  cases x.run t with
  | mk result u =>
    cases result with
    | error e => simp [Except.mapError, and_comm]
    | ok a => simp [Except.mapError]

/-- A stage that only looks at the tree hands it on as it is. -/
theorem run_perform_examine_bind {look : FileTree → Except ε α}
    (h : (stage.perform cause (.examine look) >>= next).run t = (r, s)) :
    (∃ e, look t = .error e ∧ t = s ∧ .error ⟨stage, cause e⟩ = r) ∨
      ∃ a, look t = .ok a ∧ (next a).run t = (r, s) := by
  rcases run_perform_bind_iff.1 h with ⟨e, hrun, hr⟩ | ⟨a, u, hrun, h⟩
  · obtain ⟨he, rfl⟩ := run_examine_eq hrun
    exact .inl ⟨e, he, rfl, hr⟩
  · obtain ⟨ha, rfl⟩ := run_examine_eq hrun
    exact .inr ⟨a, ha, h⟩

theorem run_perform_ofExcept_bind {x : Except ε α}
    (h : (stage.perform cause (.ofExcept x) >>= next).run t = (r, s)) :
    (∃ e, x = .error e ∧ t = s ∧ .error ⟨stage, cause e⟩ = r) ∨
      ∃ a, x = .ok a ∧ (next a).run t = (r, s) := by
  have hlook : ofExcept x = examine fun _ => x := funext (run_ofExcept x)
  rw [hlook] at h
  exact run_perform_examine_bind h

end Stage

theorem Stage.run_perform_of_eq_ok {ε α : Type} {x : FileAction ε α} {a : α}
    (h : x.run t = (.ok a, s)) (stage : Stage) (cause : ε → PassError) :
    (stage.perform cause x).run t = (.ok a, s) :=
  run_mapError_of_eq_ok h _

namespace Configuration

/-! ### The stages one after the other -/

/-- What a pass has looked up before it clears its output. -/
structure ThroughLinking (c : Configuration) (t : FileTree) where
  generators : Native.Generators
  linked : List Artifact
  generators_eq : Native.Generators.ofPlatform c.generatorSettings c.platform = .ok generators
  linked_eq : Store.readAll c.inputMetadata t = .ok linked

/-- A pass that has cleared its output. -/
structure ThroughClearing (c : Configuration) (t : FileTree) extends c.ThroughLinking t where
  /-- The tree with the output cleared. -/
  cleared : FileTree
  cleared_eq : c.output.clear.run t = (.ok (), cleared)

/-- A pass that has found its resource files. -/
structure ThroughCollecting (c : Configuration) (t : FileTree) extends c.ThroughClearing t where
  collected : List Source.Collected
  collected_eq : Source.collect c.byPrecedence cleared = .ok collected

/-- A pass that has read its resource files. -/
structure ThroughBuilding (c : Configuration) (t : FileTree) extends c.ThroughCollecting t where
  built : (k : Kind) → List (Fragment k)
  built_eq : buildAll c.strictLineBreaks collected cleared = .ok built

/-- A pass that has merged its entries over the linked ones. -/
structure ThroughMerging (c : Configuration) (t : FileTree) extends c.ThroughBuilding t where
  merged : Resources
  merged_eq : mergeAll linked built = .ok merged

/-- A pass that has written output for its resources. -/
structure ThroughNative (c : Configuration) (t : FileTree) extends c.ThroughMerging t where
  native : List Path
  /-- The tree with native output for the resources. -/
  generated : FileTree
  native_eq : (generators.generateResources merged).run cleared = (.ok native, generated)

/-- A pass that has written the holder of its objects. -/
structure ThroughHolder (c : Configuration) (t : FileTree) extends c.ThroughNative t where
  holder : List Path
  /-- The tree with the holder as well. -/
  held : FileTree
  holder_eq : (generators.generateHolder (Container.objects (c.assemble linked merged))).run
    generated = (.ok holder, held)

/-- What the stages of a successful pass find and make, from the tree they start with to the tree
they leave. -/
structure Course (c : Configuration) (t : FileTree) (outcome : Outcome) (s : FileTree) extends
    c.ThroughHolder t where
  stored_eq : (Store.write c.output.metadata outcome.artifact).run held = (.ok (), s)
  artifact_eq : outcome.artifact =
    .ofContainers c.sourceSet c.platform.name (c.assemble linked merged)
  written_eq : outcome.written = native ++ holder

/-- A pass goes through its stages, and clears its output when one of them fails. -/
theorem run_run (c : Configuration) (t : FileTree) : c.run.run t =
    match c.execute.run t with
    | (.ok outcome, s) => (.ok outcome, s)
    | (.error failure, s) => (.error failure, (c.output.clear.run s).2) := by
  simp only [run, FileAction.run, bind, FileAction.bind, attempt]
  cases c.execute t with
  | mk r s => cases r <;> rfl

/-- Clearing after a failure does not matter to a pass that succeeds. -/
theorem run_eq_ok_iff : c.run.run t = (.ok outcome, s) ↔ c.execute.run t = (.ok outcome, s) := by
  rw [run_run]
  cases c.execute.run t with
  | mk r u =>
    cases r with
    | ok => exact Iff.rfl
    | error failure => exact iff_of_false (fun h => by cases h) fun h => by cases h

/-- How a pass fails: one of its stages fails when those before it have succeeded. -/
inductive Failure (c : Configuration) (t : FileTree) : StageFailure → FileTree → Prop
  | generators {e} (h : Native.Generators.ofPlatform c.generatorSettings c.platform = .error e) :
    c.Failure t ⟨.init, .platform e⟩ t
  | linking {g e} (hg : Native.Generators.ofPlatform c.generatorSettings c.platform = .ok g)
    (h : Store.readAll c.inputMetadata t = .error e) : c.Failure t ⟨.collect, .link e⟩ t
  | clearing {e s} (p : c.ThroughLinking t) (h : c.output.clear.run t = (.error e, s)) :
    c.Failure t ⟨.collect, .output c.output.resources e⟩ s
  | collecting {e} (p : c.ThroughClearing t)
    (h : Source.collect c.byPrecedence p.cleared = .error e) :
    c.Failure t ⟨.collect, .scan e⟩ p.cleared
  | building {e} (p : c.ThroughCollecting t)
    (h : buildAll c.strictLineBreaks p.collected p.cleared = .error e) :
    c.Failure t ⟨.build, .build e⟩ p.cleared
  | merging {e} (p : c.ThroughBuilding t) (h : mergeAll p.linked p.built = .error e) :
    c.Failure t ⟨.merge, .merge e⟩ p.cleared
  | native {e s} (p : c.ThroughMerging t)
    (h : (p.generators.generateResources p.merged).run p.cleared = (.error e, s)) :
    c.Failure t ⟨.generateNative, .generate e⟩ s
  | holder {e s} (p : c.ThroughNative t)
    (h : (p.generators.generateHolder (Container.objects (c.assemble p.linked p.merged))).run
      p.generated = (.error e, s)) : c.Failure t ⟨.generateContainer, .generate e⟩ s
  | storing {e s} (p : c.ThroughHolder t)
    (h : (Store.write c.output.metadata (.ofContainers c.sourceSet c.platform.name
      (c.assemble p.linked p.merged))).run p.held = (.error e, s)) :
    c.Failure t ⟨.persist, .persist e⟩ s

/-- **A pass goes through all stages or fails in one of them.** -/
theorem outcome_of_execute {r : Except StageFailure Outcome} (h : c.execute.run t = (r, s)) :
    (∃ outcome, .ok outcome = r ∧ Nonempty (c.Course t outcome s)) ∨
      ∃ f, .error f = r ∧ c.Failure t f s := by
  rw [execute] at h
  -- each stage is the first one to fail, or hands what it found to those behind it
  rcases Stage.run_perform_ofExcept_bind h with ⟨e, he, rfl, hr⟩ | ⟨g, hg, h⟩
  · exact .inr ⟨_, hr, .generators he⟩
  rcases Stage.run_perform_examine_bind h with ⟨e, he, rfl, hr⟩ | ⟨linked, hlinked, h⟩
  · exact .inr ⟨_, hr, .linking hg he⟩
  let linking : c.ThroughLinking t := ⟨g, linked, hg, hlinked⟩
  rcases Stage.run_perform_bind_iff.1 h with ⟨e, he, hr⟩ | ⟨⟨⟩, u, hclear, h⟩
  · exact .inr ⟨_, hr, .clearing linking he⟩
  let clearing : c.ThroughClearing t := ⟨linking, u, hclear⟩
  rcases Stage.run_perform_examine_bind h with ⟨e, he, rfl, hr⟩ | ⟨collected, hcollected, h⟩
  · exact .inr ⟨_, hr, .collecting clearing he⟩
  let collecting : c.ThroughCollecting t := ⟨clearing, collected, hcollected⟩
  rcases Stage.run_perform_examine_bind h with ⟨e, he, rfl, hr⟩ | ⟨built, hbuilt, h⟩
  · exact .inr ⟨_, hr, .building collecting he⟩
  let building : c.ThroughBuilding t := ⟨collecting, built, hbuilt⟩
  rcases Stage.run_perform_ofExcept_bind h with ⟨e, he, rfl, hr⟩ | ⟨merged, hmerged, h⟩
  · exact .inr ⟨_, hr, .merging building he⟩
  let merging : c.ThroughMerging t := ⟨building, merged, hmerged⟩
  rcases Stage.run_perform_bind_iff.1 h with ⟨e, he, hr⟩ | ⟨native, v, hnative, h⟩
  · exact .inr ⟨_, hr, .native merging he⟩
  let generating : c.ThroughNative t := ⟨merging, native, v, hnative⟩
  rcases Stage.run_perform_bind_iff.1 h with ⟨e, he, hr⟩ | ⟨holder, w, hholder, h⟩
  · exact .inr ⟨_, hr, .holder generating he⟩
  let holding : c.ThroughHolder t := ⟨generating, holder, w, hholder⟩
  rcases Stage.run_perform_bind_iff.1 h with ⟨e, he, hr⟩ | ⟨⟨⟩, _, hstored, h⟩
  · exact .inr ⟨_, hr, .storing holding he⟩
  obtain ⟨hr, rfl⟩ := Prod.mk.inj h
  exact .inl ⟨_, hr, ⟨⟨holding, hstored, rfl, rfl⟩⟩⟩

theorem failure_of_execute (h : c.execute.run t = (.error f, s)) : c.Failure t f s := by
  obtain ⟨_, ho, -⟩ | ⟨_, hf, hfailure⟩ := outcome_of_execute h
  · cases ho
  · rwa [Except.error.inj hf] at hfailure

/-- **A successful pass has gone through all stages.** -/
theorem exists_course_of_run (h : c.run.run t = (.ok outcome, s)) :
    Nonempty (c.Course t outcome s) := by
  obtain ⟨_, ho, hcourse⟩ | ⟨_, hf, -⟩ := outcome_of_execute (run_eq_ok_iff.1 h)
  · rwa [Except.ok.inj ho] at hcourse
  · cases hf

/-- The stages one after the other make a pass. -/
theorem Course.run_eq (h : c.Course t outcome s) : c.run.run t = (.ok outcome, s) := by
  have hstored := h.stored_eq
  rw [h.artifact_eq] at hstored
  rw [run_eq_ok_iff, execute,
    run_bind_of_eq_ok (Stage.run_perform_of_eq_ok (run_ofExcept_of_eq_ok h.generators_eq t) _ _),
    run_bind_of_eq_ok (Stage.run_perform_of_eq_ok (run_examine_of_eq_ok h.linked_eq) _ _),
    run_bind_of_eq_ok (Stage.run_perform_of_eq_ok h.cleared_eq _ _),
    run_bind_of_eq_ok (Stage.run_perform_of_eq_ok (run_examine_of_eq_ok h.collected_eq) _ _),
    run_bind_of_eq_ok (Stage.run_perform_of_eq_ok (run_examine_of_eq_ok h.built_eq) _ _),
    run_bind_of_eq_ok
      (Stage.run_perform_of_eq_ok (run_ofExcept_of_eq_ok h.merged_eq h.cleared) _ _),
    run_bind_of_eq_ok (Stage.run_perform_of_eq_ok h.native_eq _ _),
    run_bind_of_eq_ok (Stage.run_perform_of_eq_ok h.holder_eq _ _),
    run_bind_of_eq_ok (Stage.run_perform_of_eq_ok hstored _ _), run_pure, ← h.artifact_eq,
    ← h.written_eq]

/-- The source set of a pass itself. -/
def own (c : Configuration) : SourceSet := ⟨c.sourceSet, c.ownResources⟩

/-- A pass that builds upon nothing goes through its stages with what its own source set has. -/
theorem run_eq_of_own {g : Native.Generators} {u v w : FileTree} {found : List Location}
    {merged : Resources} {native holder : List Path} {a : Artifact}
    (hupper : c.upperSourceSets = []) (hlinked : c.inputMetadata = [])
    (hg : Native.Generators.ofPlatform c.generatorSettings c.platform = .ok g)
    (hcleared : c.output.clear.run t = (.ok (), u)) (hfound : Source.scan c.own u = .ok found)
    (hbuilt : ∀ k, Source.build c.strictLineBreaks c.sourceSet c.ownResources
      (Source.filesOf k c.own found) u k = .ok (merged k))
    (hmerged : ∀ k, mergeFragments [⟨c.sourceSet, merged k⟩] = .ok (merged k))
    (hnative : (g.generateResources merged).run u = (.ok native, v))
    (hholder : (g.generateHolder (Container.objects (c.assemble [] merged))).run v =
      (.ok holder, w))
    (ha : a = .ofContainers c.sourceSet c.platform.name (c.assemble [] merged))
    (hstored : (Store.write c.output.metadata a).run w = (.ok (), s)) :
    c.run.run t = (.ok ⟨a, native ++ holder⟩, s) := by
  have hcollected : Source.collect c.byPrecedence u =
      .ok [⟨c.own, fun k => Source.filesOf k c.own found⟩] := by
    rw [byPrecedence, hupper, Source.collect, mapM_eq_ok_iff]
    refine .cons ?_ .nil
    show Source.scan c.own u >>= _ = _
    rw [hfound]
    rfl
  have hall : buildAll c.strictLineBreaks [⟨c.own, fun k => Source.filesOf k c.own found⟩] u =
      .ok fun k => [⟨c.sourceSet, merged k⟩] := by
    rw [buildAll, Kind.traverse_eq_ok_iff]
    intro k
    refine mapM_eq_ok_iff.2 (.cons ?_ .nil)
    show Source.build c.strictLineBreaks c.sourceSet c.ownResources _ u k >>= _ = _
    rw [hbuilt k]
    rfl
  have hmerge : mergeAll [] (fun k => [⟨c.sourceSet, merged k⟩]) = .ok merged := by
    rw [mergeAll, Kind.traverse_eq_ok_iff]
    exact hmerged
  have hcourse : c.Course t ⟨a, native ++ holder⟩ s :=
    { generators := g
      linked := []
      cleared := u
      collected := [⟨c.own, fun k => Source.filesOf k c.own found⟩]
      built := fun k => [⟨c.sourceSet, merged k⟩]
      merged := merged
      native := native
      generated := v
      holder := holder
      held := w
      generators_eq := hg
      linked_eq := by rw [hlinked]; rfl
      cleared_eq := hcleared
      collected_eq := hcollected
      built_eq := hall
      merged_eq := hmerge
      native_eq := hnative
      holder_eq := hholder
      stored_eq := hstored
      artifact_eq := ha
      written_eq := rfl }
  exact hcourse.run_eq

end Configuration

end ResourceCompiler
