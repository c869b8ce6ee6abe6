import ResourceCompiler.Proofs.Provision

/-!
# Passes for two platforms

What a pass finds, builds and merges does not depend on its platform, and neither do the objects
that it assembles, but for one thing: a new object waits to be provided in a pass for all platforms,
and is final in any other pass.

* `Configuration.AlikeButPlatform`: configurations that differ in the platform and its settings.
* `Role.Across`, `Container.Across`: one container in passes for two platforms.
* `Configuration.Course.linked_merged_eq`: what two passes link and merge.
* `Configuration.containers_across_of_run`: the containers of two passes.
-/

namespace ResourceCompiler

open FileAction

/-- One role in passes for two platforms: the same, or that of a new object where only one of the
passes is for all platforms. -/
inductive Role.Across (p p' : Platform) : Role → Role → Prop where
  | same (role : Role) : Across p p' role role
  | expect (common : p.isCommon = true) (special : p'.isCommon = false) :
      Across p p' .expect .plain
  | plain (special : p.isCommon = false) (common : p'.isCommon = true) :
      Across p p' .plain .expect

/-- One container in passes for two platforms: the same object but for its role. -/
inductive Container.Across (p p' : Platform) : Container → Container → Prop where
  | object {role role' : Role} (name : String) (type : Kind) (visibility : Visibility)
      (values : List Resource) (nested : List Container) (roles : role.Across p p' role') :
      Across p p' (.node name (.object type role visibility) values nested)
        (.node name (.object type role' visibility) values nested)

variable {p p' : Platform}

/-- Roles differ only where one of the passes is for all platforms and the other is not. -/
theorem Role.Across.eq_of_isCommon_eq {role role' : Role} (h : role.Across p p' role')
    (hcommon : p.isCommon = p'.isCommon) : role = role' := by
  cases h with
  | same => rfl
  | expect common special => rw [hcommon, special] at common; cases common
  | plain special common => rw [hcommon, common] at special; cases special

theorem Container.Across.eq_of_isCommon_eq {a b : Container} (h : a.Across p p' b)
    (hcommon : p.isCommon = p'.isCommon) : a = b := by
  cases h with
  | object name type visibility values nested roles => rw [roles.eq_of_isCommon_eq hcommon]

namespace Configuration

variable {c c' : Configuration} {outcome outcome' : Outcome} {t s s' : FileTree}
  {linked : List Artifact} {merged : Resources}

/-- Whether configurations differ in nothing but the platform and what only concerns platforms: the
package of Android resources and the region of Apple bundles. -/
def AlikeButPlatform (c c' : Configuration) : Prop :=
  c' = { c with
    platform := c'.platform
    androidPackage := c'.androidPackage
    baseRegion := c'.baseRegion }

/-! ### What two passes find -/

/-- **Passes for two platforms link and merge the same.** -/
theorem Course.linked_merged_eq (halike : c.AlikeButPlatform c') (h : c.Course t outcome s)
    (h' : c'.Course t outcome' s') : h'.linked = h.linked ∧ h'.merged = h.merged := by
  have hlinked : h'.linked = h.linked := by
    have heq := h'.linked_eq
    rw [congrArg inputMetadata halike] at heq
    exact Except.ok.inj (heq.symm.trans h.linked_eq)
  have hcleared : h'.cleared = h.cleared := by
    have heq := h'.cleared_eq
    rw [congrArg output halike] at heq
    exact (Prod.mk.inj (heq.symm.trans h.cleared_eq)).2
  have hcollected : h'.collected = h.collected := by
    have heq := h'.collected_eq
    rw [congrArg byPrecedence halike, hcleared] at heq
    exact Except.ok.inj (heq.symm.trans h.collected_eq)
  have hbuilt : h'.built = h.built := by
    have heq := h'.built_eq
    rw [congrArg strictLineBreaks halike, hcollected, hcleared] at heq
    exact Except.ok.inj (heq.symm.trans h.built_eq)
  have hmerged : h'.merged = h.merged := by
    have heq := h'.merged_eq
    rw [hlinked, hbuilt] at heq
    exact Except.ok.inj (heq.symm.trans h.merged_eq)
  exact ⟨hlinked, hmerged⟩

/-! ### What two passes assemble -/

theorem roleOf_across (c c' : Configuration) (linked : List Artifact) (name : String) :
    (c.roleOf linked name).Across c.platform c'.platform (c'.roleOf linked name) := by
  unfold roleOf
  split
  · exact .same .actual
  · cases hcommon : c.platform.isCommon with
    | true =>
      cases hcommon' : c'.platform.isCommon with
      | true => exact .same .expect
      | false => exact .expect hcommon hcommon'
    | false =>
      cases hcommon' : c'.platform.isCommon with
      | true => exact .plain hcommon hcommon'
      | false => exact .same .plain

/-- Whether an object is left out does not depend on the platform. -/
theorem objectOf?_across (halike : c.AlikeButPlatform c') (k : Kind) (es : List (Entry k)) :
    Option.Rel (Container.Across c.platform c'.platform) (c.objectOf? linked k es)
      (c'.objectOf? linked k es) := by
  have hname : c'.objectName k = c.objectName k :=
    objectName_congr (by rw [halike]) (by rw [halike]) k
  have hvisibility : c'.visibility = c.visibility := by rw [halike]
  have hactual : c'.roleOf linked (c.objectName k) ≠ .actual ↔
      c.roleOf linked (c.objectName k) ≠ .actual := by
    rw [ne_eq, ne_eq, roleOf_eq_actual_iff, roleOf_eq_actual_iff]
  unfold objectOf?
  rw [hname, hvisibility]
  simp only [hactual]
  split
  · exact .none
  · exact .some (.object _ _ _ _ _ (roleOf_across c c' linked _))

theorem assemble_across (halike : c.AlikeButPlatform c') :
    List.Forall₂ (Container.Across c.platform c'.platform) (c.assemble linked merged)
      (c'.assemble linked merged) := by
  refine List.rel_filterMap (R := Eq) ?_ (List.forall₂_refl Kind.all)
  rintro k _ rfl
  exact objectOf?_across halike k (merged k)

/-- **The containers of a pass do not depend on the platform.** Two successful passes whose
configurations differ only in the platform and its settings, over one tree, give the same containers
in the same order, but for the roles of new objects: these wait to be provided in a pass for all
platforms, and are final in a pass for one. -/
theorem containers_across_of_run (halike : c.AlikeButPlatform c')
    (h : c.run.run t = (.ok outcome, s)) (h' : c'.run.run t = (.ok outcome', s')) :
    List.Forall₂ (Container.Across c.platform c'.platform) outcome.artifact.containers
        outcome'.artifact.containers ∧
      (c.platform.isCommon = c'.platform.isCommon →
        outcome'.artifact.containers = outcome.artifact.containers) := by
  obtain ⟨course⟩ := exists_course_of_run h
  obtain ⟨course'⟩ := exists_course_of_run h'
  obtain ⟨hlinked, hmerged⟩ := course.linked_merged_eq halike course'
  have hacross : List.Forall₂ (Container.Across c.platform c'.platform)
      outcome.artifact.containers outcome'.artifact.containers := by
    rw [course.containers_eq, course'.containers_eq, hlinked, hmerged]
    exact assemble_across halike
  refine ⟨hacross, fun hcommon => ?_⟩
  have heq := hacross.imp fun _ _ hab => hab.eq_of_isCommon_eq hcommon
  exact (List.forall₂_eq_eq_eq ▸ heq).symm

end Configuration

/-! ### The emblem for JavaScript -/

namespace Emblem

/-- The first pass, for JavaScript. -/
def web : Configuration := { first with platform := .js }

/-- The artifact of that pass. -/
def webArtifact : Artifact :=
  .ofContainers web.sourceSet web.platform.name (web.assemble [] merged)

def webGenerators : Native.Generators :=
  ⟨Native.Js.plan web.package web.output.resources, fun _ => []⟩

/-- The tree with the image copied. -/
def generated : FileTree := ((webGenerators.generateResources merged).run cleared).2

theorem run_web : ∃ written s, web.run.run tree = (.ok ⟨webArtifact, written⟩, s) := by
  have hwritten : ((webGenerators.generateResources merged).run cleared).1 =
      .ok [⟨"out/res/images/emblem.png"⟩] := by decide +kernel
  refine ⟨_, ((Store.write web.output.metadata webArtifact).run generated).2,
    Configuration.run_eq_of_own (g := webGenerators) (u := cleared) rfl rfl rfl
      (run_eq_of_isOk (by decide +kernel)) scan_cleared ?_ ?_ (run_eq_of_fst hwritten)
      (run_pure [] generated) rfl (run_eq_of_isOk (by decide +kernel))⟩
  · intro k
    cases k <;> rfl
  · intro k
    cases k <;> rfl

end Emblem

/-- The object with the image waits to be provided in one pass and is final in the other. -/
theorem Configuration.containers_across_of_run_emblem :
    ∃ object ∈ Emblem.artifact.containers, ∃ object' ∈ Emblem.webArtifact.containers,
      object.Across .common .js object' ∧
        object.object?.map ResourceObject.role = some .expect ∧
        object'.object?.map ResourceObject.role = some .plain := by
  obtain ⟨written, s, hweb⟩ := Emblem.run_web
  have halike : Emblem.first.AlikeButPlatform Emblem.web := rfl
  obtain ⟨hacross, -⟩ := Configuration.containers_across_of_run halike Emblem.run_first hweb
  cases hacross with
  | cons hobjects hrest =>
    exact ⟨_, List.mem_singleton_self _, _, List.mem_singleton_self _, hobjects, rfl, rfl⟩

end ResourceCompiler
