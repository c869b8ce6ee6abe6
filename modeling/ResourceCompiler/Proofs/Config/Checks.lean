import ResourceCompiler.Config.Configuration
import ResourceCompiler.Proofs.Sequence

/-!
# What settings have to pass

Settings come to a configuration if each of them passes its own check, and the places of their
output can be told. The places are looked at last, so that all else is checked in the same way
wherever output goes.

* `Settings.Checked`: what is checked besides output, and what the settings come to.
* `Settings.Checked.resolve_eq`, `Settings.Checked.resolve_eq_error_iff`: what is left to output
  when all else has been checked.
* `Settings.resolve_eq_ok_iff`: the settings that come to a configuration.
-/

namespace ResourceCompiler.Settings

variable {s : Settings} {c : Configuration}

/-! ### Single checks -/

theorem valid_eq_ok_iff {α : Type} {x : Except InvalidValue α} {a : α} :
    valid x = .ok a ↔ x = .ok a :=
  mapError_eq_ok_iff

theorem required_eq_ok_iff {α : Type} {setting : String} {o : Option α} {a : α} :
    required setting o = .ok a ↔ o = some a := by
  cases o with
  | none => exact iff_of_false (fun h => by cases h) fun h => by cases h
  | some b => rw [required, Except.ok.injEq, Option.some.injEq]

/-- A check in front of a computation that succeeds has passed. -/
theorem guard_eq_ok {ε α : Type} {p : Prop} [Decidable p] {e : ε} {x : Unit → Except ε α} {a : α}
    (h : (if p then throw e >>= x else x ()) = .ok a) : ¬ p ∧ x () = .ok a := by
  split at h
  · cases h
  · rename_i hp
    exact ⟨hp, h⟩

/-! ### All checks -/

/-- Whether settings come to a configuration, but for its output. -/
structure Checked (s : Settings) (c : Configuration) : Prop where
  validated : s.validate = .ok ()
  platform : ∃ name, s.platform = some name ∧
    Platform.ofSettings? name s.appleTarget = .ok c.platform
  sourceSet : ∃ name, s.sourceSet = some name ∧ SourceSetName.ofText? name = .ok c.sourceSet
  ownResources : s.ownResources = some c.ownResources
  package : ∃ name, s.packageName = some name ∧ PackageName.ofText? name = .ok c.package
  className : s.className.elim (.ok .default) ClassName.ofText? = .ok c.className
  visibility : c.visibility = (s.visibility.bind Visibility.ofSetting?).getD .exported
  strictLineBreaks : c.strictLineBreaks = s.strictLineBreaks.getD false
  androidPackage : s.androidPackage.elim (c.androidPackage = none) fun name =>
    ∃ package, PackageName.ofText? name = .ok package ∧ c.androidPackage = some package
  /-- Android resources need a package. -/
  android : c.platform = .android → c.androidPackage ≠ none
  baseRegion : Locale.ofText? (s.baseRegion.getD "en") = .ok c.baseRegion
  baseRegion_ne_base : c.baseRegion ≠ .base
  upperSourceSets : List.Forall₂
    (fun u upper => SourceSetName.ofText? u.name = .ok upper.name ∧ u.path = upper.root)
    (s.upperSourceSets.getD []) c.upperSourceSets
  inputMetadata : c.inputMetadata = s.inputMetadata.getD []
  loadedFrom : c.loadedFrom = none

/-- Neither the settings of output nor output itself count for the other checks. -/
theorem Checked.of_output (h : s.Checked c) (settings : Option OutputSettings)
    (output : OutputPaths) : { s with output := settings }.Checked { c with output := output } :=
  { h with }

/-- Settings that come to a configuration have passed all checks. -/
theorem checked_of_resolve (h : s.resolve = .ok c) :
    s.Checked c ∧ outputPaths (s.output.getD {}) = .ok c.output := by
  rw [resolve] at h
  obtain ⟨⟨⟩, hvalidated, h⟩ := bind_eq_ok h
  obtain ⟨platformName, hplatformName, h⟩ := bind_eq_ok h
  obtain ⟨platform, hplatform, h⟩ := bind_eq_ok h
  obtain ⟨sourceSetName, hsourceSetName, h⟩ := bind_eq_ok h
  obtain ⟨sourceSet, hsourceSet, h⟩ := bind_eq_ok h
  obtain ⟨ownResources, hown, h⟩ := bind_eq_ok h
  obtain ⟨packageName, hpackageName, h⟩ := bind_eq_ok h
  obtain ⟨package, hpackage, h⟩ := bind_eq_ok h
  extract_lets -underBinder afterClass at h
  obtain ⟨className, hclass, h⟩ : ∃ className,
      s.className.elim (.ok .default) ClassName.ofText? = .ok className ∧
        afterClass className = .ok c := by
    split at h
    · rename_i name hname
      obtain ⟨className, hclass, h⟩ := bind_eq_ok h
      exact ⟨className, by rw [hname]; exact valid_eq_ok_iff.1 hclass, h⟩
    · rename_i hname
      exact ⟨.default, by rw [hname]; rfl, h⟩
  unfold afterClass at h
  extract_lets -underBinder visibility afterPackage at h
  obtain ⟨androidPackage, hpackage', h⟩ : ∃ androidPackage,
      (s.androidPackage.elim (androidPackage = none) fun name =>
        ∃ package, PackageName.ofText? name = .ok package ∧ androidPackage = some package) ∧
        afterPackage androidPackage = .ok c := by
    split at h
    · rename_i name hname
      obtain ⟨_, hsome, h⟩ := bind_eq_ok h
      rw [map_eq_pure_bind] at hsome
      obtain ⟨package, hp, hsome⟩ := bind_eq_ok hsome
      obtain rfl := Except.ok.inj hsome
      exact ⟨some package, by rw [hname]; exact ⟨package, valid_eq_ok_iff.1 hp, rfl⟩, h⟩
    · rename_i hname
      exact ⟨none, by rw [hname]; rfl, h⟩
  obtain ⟨handroid, h⟩ := guard_eq_ok h
  obtain ⟨baseRegion, hregion, h⟩ := bind_eq_ok h
  obtain ⟨hbase, h⟩ := guard_eq_ok h
  obtain ⟨upperSourceSets, huppers, h⟩ := bind_eq_ok h
  obtain ⟨output, houtput, h⟩ := bind_eq_ok h
  obtain rfl := Except.ok.inj h
  exact ⟨{
    validated := hvalidated
    platform := ⟨platformName, required_eq_ok_iff.1 hplatformName, mapError_eq_ok_iff.1 hplatform⟩
    sourceSet := ⟨sourceSetName, required_eq_ok_iff.1 hsourceSetName, valid_eq_ok_iff.1 hsourceSet⟩
    ownResources := required_eq_ok_iff.1 hown
    package := ⟨packageName, required_eq_ok_iff.1 hpackageName, valid_eq_ok_iff.1 hpackage⟩
    className := hclass
    visibility := rfl
    strictLineBreaks := rfl
    androidPackage := hpackage'
    android := fun hp hnone => handroid ⟨hp, hnone⟩
    baseRegion := valid_eq_ok_iff.1 hregion
    baseRegion_ne_base := hbase
    upperSourceSets := (mapM_eq_ok_iff.1 huppers).imp fun u upper hupper => by
      obtain ⟨name, hname, hupper⟩ := bind_eq_ok hupper
      obtain rfl := Except.ok.inj hupper
      exact ⟨valid_eq_ok_iff.1 hname, rfl⟩
    inputMetadata := rfl
    loadedFrom := rfl }, houtput⟩

/-- **Settings that have passed all other checks** come to a configuration exactly if the places of
their output can be told. -/
theorem Checked.resolve_eq (h : s.Checked c) :
    s.resolve = (outputPaths (s.output.getD {})).map fun o => { c with output := o } := by
  obtain ⟨platformName, hplatformName, hplatform⟩ := h.platform
  obtain ⟨sourceSetName, hsourceSetName, hsourceSet⟩ := h.sourceSet
  obtain ⟨packageName, hpackageName, hpackage⟩ := h.package
  have huppers : (s.upperSourceSets.getD []).mapM (fun u => do
      return (⟨← valid (SourceSetName.ofText? u.name), u.path⟩ : SourceSet)) =
        .ok c.upperSourceSets := by
    refine mapM_eq_ok_iff.2 (h.upperSourceSets.imp fun u upper hupper => ?_)
    rw [bind_of_eq_ok (valid_eq_ok_iff.2 hupper.1), hupper.2]
    rfl
  have hguard : ¬ (c.platform = .android ∧ c.androidPackage = none) := fun hp => h.android hp.1 hp.2
  rw [resolve, bind_of_eq_ok h.validated, bind_of_eq_ok (required_eq_ok_iff.2 hplatformName),
    bind_of_eq_ok (mapError_eq_ok_iff.2 hplatform),
    bind_of_eq_ok (required_eq_ok_iff.2 hsourceSetName),
    bind_of_eq_ok (valid_eq_ok_iff.2 hsourceSet),
    bind_of_eq_ok (required_eq_ok_iff.2 h.ownResources),
    bind_of_eq_ok (required_eq_ok_iff.2 hpackageName), bind_of_eq_ok (valid_eq_ok_iff.2 hpackage)]
  extract_lets -underBinder afterClass
  suffices hafter : afterClass c.className =
      (outputPaths (s.output.getD {})).map fun o => { c with output := o } by
    have hclass := h.className
    split
    · rename_i name hname
      rw [hname, Option.elim_some] at hclass
      rw [bind_of_eq_ok (valid_eq_ok_iff.2 hclass), hafter]
    · rename_i hname
      rw [hname, Option.elim_none] at hclass
      rw [pure_bind, Except.ok.inj hclass, hafter]
  unfold afterClass
  extract_lets -underBinder visibility afterPackage
  suffices hafter : afterPackage c.androidPackage =
      (outputPaths (s.output.getD {})).map fun o => { c with output := o } by
    have hpackage := h.androidPackage
    split
    · rename_i name hname
      rw [hname, Option.elim_some] at hpackage
      obtain ⟨package, hpackage, hsome⟩ := hpackage
      rw [map_eq_pure_bind, bind_of_eq_ok (valid_eq_ok_iff.2 hpackage), pure_bind, ← hsome, hafter]
    · rename_i hname
      rw [hname, Option.elim_none] at hpackage
      rw [pure_bind, ← hpackage, hafter]
  unfold afterPackage
  extract_lets -underBinder afterAndroid
  rw [if_neg hguard]
  unfold afterAndroid
  rw [bind_of_eq_ok (valid_eq_ok_iff.2 h.baseRegion)]
  extract_lets -underBinder afterRegion
  rw [if_neg h.baseRegion_ne_base]
  unfold afterRegion
  rw [bind_of_eq_ok huppers, ← h.strictLineBreaks, ← h.inputMetadata, ← h.loadedFrom]
  unfold visibility
  rw [← h.visibility]
  cases outputPaths (s.output.getD {}) <;> rfl

/-- Nothing but output can be wrong with settings that have passed all other checks. -/
theorem Checked.resolve_eq_error_iff (h : s.Checked c) {e : ConfigError} :
    s.resolve = .error e ↔ outputPaths (s.output.getD {}) = .error e := by
  rw [h.resolve_eq]
  cases outputPaths (s.output.getD {}) with
  | error e' => exact ⟨fun h => congrArg _ (Except.error.inj h), fun h => by rw [h]; rfl⟩
  | ok o => exact iff_of_false (fun h => by cases h) fun h => by cases h

/-- **The settings that come to a configuration** are those that pass all checks. -/
theorem resolve_eq_ok_iff : s.resolve = .ok c ↔
    s.Checked c ∧ outputPaths (s.output.getD {}) = .ok c.output := by
  refine ⟨checked_of_resolve, fun ⟨hchecked, houtput⟩ => ?_⟩
  rw [hchecked.resolve_eq, houtput]
  rfl

end ResourceCompiler.Settings
