import ResourceCompiler.Native.Generators
import ResourceCompiler.Proofs.FileTree.Locality
import ResourceCompiler.Proofs.Native.Collecting
import ResourceCompiler.Proofs.Native.Performing

/-!
# What native output is made from

Output depends on two parts of a tree only: what is on the ways to its files, and what is on the
ways to the images that it copies, which are files of the entries that it is made for.

* `Output.Takes`, `Generators.takes_resourcePlan`: the images that output copies.
* `Plan.isLocal_perform`: a plan depends on the ways to its files and to what they copy.
* `Plan.isFile_of_perform`: what has been copied is there.
-/

namespace ResourceCompiler.Native

open FileAction FileTree

variable {S : Path → Prop} {o : Output} {plan : Plan} {s t u : FileTree}

/-! ### Images that are copied -/

/-- Whether what a file of output copies, if it is a copy, is among given paths. -/
def Output.Takes (S : Path → Prop) : Output → Prop
  | .document _ _ => True
  | .image _ _ source _ => S source

theorem Output.Takes.imp {S S' R : Path → Prop} (h : o.Takes S) (h' : o.Takes S')
    (himp : ∀ p, S p → S' p → R p) : o.Takes R := by
  cases o with
  | document path text => trivial
  | image platform key source target => exact himp source h h'

/-- Whether what all files of a plan copy is among given paths. -/
def Plan.Takes (S : Path → Prop) (plan : Plan) : Prop := ∀ o, .ok o ∈ plan → o.Takes S

theorem Plan.takes_nil : Plan.Takes S [] := fun _ h => by cases h

theorem Plan.Takes.cons {step : Except GenerateError Output} (hstep : ∀ o, step = .ok o → o.Takes S)
    (h : plan.Takes S) : Plan.Takes S (step :: plan) := by
  intro o ho
  rcases List.mem_cons.1 ho with ho | ho
  · exact hstep o ho.symm
  · exact h o ho

theorem Plan.Takes.orFault (h : plan.Takes S) (fault : Option GenerateError) :
    (plan.orFault fault).Takes S := by
  cases fault with
  | none => exact h
  | some e => exact takes_nil.cons fun _ he => by cases he

theorem Plan.takes_map {α : Type} {f : α → Except GenerateError Output} {as : List α}
    (h : ∀ a ∈ as, ∀ o, f a = .ok o → o.Takes S) : Plan.Takes S (as.map f) := by
  intro o ho
  obtain ⟨a, ha, heq⟩ := List.mem_map.1 ho
  exact h a ha o heq

theorem Plan.takes_flatMap {α : Type} {f : α → Plan} {as : List α}
    (h : ∀ a ∈ as, (f a).Takes S) : Plan.Takes S (as.flatMap f) := by
  intro o ho
  obtain ⟨a, ha, hmem⟩ := List.mem_flatMap.1 ho
  exact h a ha o hmem

/-- Documents copy nothing. -/
theorem Plan.takes_documents {α : Type} {f : α → Except GenerateError Output}
    (h : ∀ a, ∃ path text, f a = .ok (.document path text)) (as : List α) :
    Plan.Takes S (as.map f) := by
  refine takes_map fun a _ o ho => ?_
  obtain ⟨path, text, hdocument⟩ := h a
  obtain rfl := Except.ok.inj (hdocument.symm.trans ho)
  trivial

/-- Whether a path is that of an image file that entries name. -/
def isImageOf : (k : Kind) → List (Entry k) → Path → Prop
  | .strings, _, _ => False
  | .plurals, _, _ => False
  | .images, es, p => ∃ e ∈ es, ∃ v ∈ imageValues e, v.2.path = p
  | .colors, _, _ => False

theorem Android.takes_plan (package : PackageName) (resources : Path) (k : Kind)
    (es : List (Entry k)) : Plan.Takes (isImageOf k es) (Android.plan package resources k es) := by
  cases k with
  | strings => exact (Plan.takes_documents (fun _ => ⟨_, _, rfl⟩) _).orFault _
  | plurals => exact (Plan.takes_documents (fun _ => ⟨_, _, rfl⟩) _).orFault _
  | images =>
    refine Plan.takes_flatMap fun e he => ?_
    rw [drawables]
    split
    · refine Plan.takes_map fun v hv o ho => ?_
      simp only [drawable] at ho
      split at ho
      · cases ho
      · split at ho
        · cases ho
        · obtain rfl := Except.ok.inj ho
          exact ⟨e, he, v, hv, rfl⟩
    · exact Plan.takes_nil.cons fun _ he => by cases he
  | colors =>
    have hdocument (path : Path) (text : String) (o : Output)
        (ho : (.ok (.document path text) : Except GenerateError Output) = .ok o) :
        o.Takes (isImageOf .colors es) := by
      obtain rfl := Except.ok.inj ho
      trivial
    simp only [Android.plan, colorTables]
    split
    · exact Plan.takes_nil
    · refine Plan.Takes.cons (hdocument _ _) ?_
      split
      · exact Plan.takes_nil
      · exact Plan.takes_nil.cons (hdocument _ _)

theorem Apple.takes_plan (region : Locale) (resources assets : Path) (k : Kind)
    (es : List (Entry k)) :
    Plan.Takes (isImageOf k es) (Apple.plan region resources assets k es) := by
  have hcontents {S : Path → Prop} {directory : Path} {description : Json} (o : Output)
      (ho : contents directory description = .ok o) : o.Takes S := by
    obtain rfl := Except.ok.inj ho
    trivial
  cases k with
  | strings => exact Plan.takes_documents (fun _ => ⟨_, _, rfl⟩) _
  | plurals => exact Plan.takes_documents (fun _ => ⟨_, _, rfl⟩) _
  | images =>
    simp only [Apple.plan, imagePlan]
    split
    · exact Plan.takes_nil
    · refine Plan.Takes.cons hcontents (Plan.takes_flatMap fun e he => ?_)
      simp only [imageSet]
      split
      · exact Plan.takes_nil.cons fun _ he => by cases he
      · intro o ho
        rcases List.mem_append.1 ho with ho | ho
        · refine Plan.takes_map (fun v hv o ho => ?_) o ho
          rw [imageCopy] at ho
          split at ho
          · cases ho
          · obtain rfl := Except.ok.inj ho
            exact ⟨e, he, v, hv, rfl⟩
        · exact hcontents o (List.mem_singleton.1 ho).symm
  | colors =>
    simp only [Apple.plan, colorPlan]
    split
    · exact Plan.takes_nil
    · exact Plan.Takes.cons hcontents (Plan.takes_documents (fun _ => ⟨_, _, rfl⟩) _)

theorem takes_imageFolder (platform : String) (resources : Path) (es : List (Entry .images)) :
    Plan.Takes (isImageOf .images es) (imageFolder platform resources es) := by
  refine Plan.takes_flatMap fun e he => Plan.takes_map fun v hv o ho => ?_
  obtain rfl := Except.ok.inj ho
  exact ⟨e, he, v, hv, rfl⟩

theorem Jvm.takes_plan (package : PackageName) (className : ClassName) (resources : Path)
    (k : Kind) (es : List (Entry k)) :
    Plan.Takes (isImageOf k es) (Jvm.plan package className resources k es) := by
  cases k with
  | strings => exact (Plan.takes_documents (fun _ => ⟨_, _, rfl⟩) _).orFault _
  | plurals => exact (Plan.takes_documents (fun _ => ⟨_, _, rfl⟩) _).orFault _
  | images => exact takes_imageFolder platform resources es
  | colors => exact Plan.takes_nil

theorem Js.takes_plan (package : PackageName) (resources : Path) (k : Kind)
    (es : List (Entry k)) : Plan.Takes (isImageOf k es) (Js.plan package resources k es) := by
  cases k with
  | strings =>
    rw [plan, maps_eq_orFault]
    exact (Plan.takes_documents (fun _ => ⟨_, _, rfl⟩) _).orFault _
  | plurals =>
    rw [plan, maps_eq_orFault]
    exact (Plan.takes_documents (fun _ => ⟨_, _, rfl⟩) _).orFault _
  | images => exact takes_imageFolder platform resources es
  | colors => exact Plan.takes_nil

namespace Generators

variable {settings : GeneratorSettings} {platform : Platform} {g : Generators}

/-- The output of a kind copies only files that its entries name. -/
theorem takes_resources (h : ofPlatform settings platform = .ok g) (k : Kind)
    (es : List (Entry k)) : Plan.Takes (isImageOf k es) (g.resources k es) := by
  cases platform with
  | common =>
    obtain rfl := Except.ok.inj h
    exact Plan.takes_nil
  | android =>
    rw [ofPlatform] at h
    split at h
    · obtain rfl := Except.ok.inj h
      exact Android.takes_plan _ _ k es
    · cases h
  | apple =>
    obtain rfl := Except.ok.inj h
    exact Apple.takes_plan _ _ _ k es
  | jvm =>
    obtain rfl := Except.ok.inj h
    exact Jvm.takes_plan _ _ _ k es
  | js =>
    obtain rfl := Except.ok.inj h
    exact Js.takes_plan _ _ k es

/-- **Native output copies only images** that the merged entries name. -/
theorem takes_resourcePlan (h : ofPlatform settings platform = .ok g) (resources : Resources) :
    (g.resourcePlan resources).Takes (isImageOf .images (resources .images)) := by
  intro o ho
  obtain ⟨k, -, hk⟩ := List.mem_flatMap.1 ho
  have htakes := takes_resources h k (resources k) o hk
  cases o with
  | document path text => trivial
  | image platform key source target =>
    cases k with
    | images => exact htakes
    | strings => exact htakes.elim
    | plurals => exact htakes.elim
    | colors => exact htakes.elim

/-- Holders copy nothing. -/
theorem takes_holder (h : ofPlatform settings platform = .ok g) (objects : List ResourceObject) :
    (g.holder objects).Takes S := by
  have hdocument (path : Path) (text : String) (o : Output)
      (ho : (.ok (.document path text) : Except GenerateError Output) = .ok o) : o.Takes S := by
    obtain rfl := Except.ok.inj ho
    trivial
  cases platform with
  | common =>
    obtain rfl := Except.ok.inj h
    exact Plan.takes_nil
  | android =>
    rw [ofPlatform] at h
    split at h
    · obtain rfl := Except.ok.inj h
      exact Plan.takes_nil
    · cases h
  | apple =>
    obtain rfl := Except.ok.inj h
    exact Plan.takes_nil.cons (hdocument _ _)
  | jvm =>
    obtain rfl := Except.ok.inj h
    exact Plan.takes_nil.cons (hdocument _ _)
  | js =>
    obtain rfl := Except.ok.inj h
    exact Plan.takes_nil

end Generators

/-! ### What output depends on -/

variable {A : Location → Prop} {paths : List Path}

/-- A file of output depends on the way to it, and on the way to what it copies. -/
theorem Output.isLocal_perform (hpath : o.path.Within A) (htakes : o.Takes (Path.Within A)) :
    IsLocal A o.perform := by
  cases o with
  | document path text =>
    refine ((isLocal_createHolders hpath).mapError _).bind fun _ => ?_
    exact ((isLocal_write hpath _).mapError _).bind fun _ => .pure path
  | image platform key source target =>
    refine (IsLocal.ask fun _ _ h => isFile_congr h htakes).bind fun there => ?_
    cases there with
    | true =>
      refine ((isLocal_createHolders hpath).mapError _).bind fun _ => ?_
      exact ((isLocal_copyFile htakes hpath).mapError _).bind fun _ => .pure target
    | false => exact .fail _

/-- A plan depends on the ways to its files, and on the ways to what they copy. -/
theorem Plan.isLocal_perform (hpaths : ∀ o, .ok o ∈ plan → o.path.Within A)
    (htakes : plan.Takes (Path.Within A)) : IsLocal A plan.perform := by
  refine IsLocal.each fun step hstep => ?_
  cases step with
  | error e => exact .fail e
  | ok o => exact o.isLocal_perform (hpaths o hstep) (htakes o hstep)

/-- What a plan copies is there after it. -/
theorem Plan.isFile_of_perform (h : plan.perform.run t = (.ok paths, s)) :
    plan.Takes fun p => s.isFile p = true := by
  induction plan generalizing t paths with
  | nil => exact takes_nil
  | cons step plan ih =>
    obtain ⟨path, u, rest, rfl, hfirst, hrest⟩ := run_each_cons_eq_ok h
    refine (ih hrest).cons fun o ho => ?_
    subst ho
    cases o with
    | document path text => trivial
    | image platform key source target =>
      obtain ⟨there, _, hask, hcopy⟩ := run_bind_eq_ok hfirst
      obtain ⟨hthere, rfl⟩ := Prod.mk.inj hask
      cases there with
      | false => cases (Prod.mk.inj hcopy).1
      | true =>
        -- the copy and what is written after it leave a file where the source is
        obtain ⟨outputs, -, -, hwrites⟩ := Plan.perform_eq_ok h
        obtain ⟨content, hread⟩ := isFile_iff.1 (Except.ok.inj hthere)
        have hstat := read_eq_ok_iff.1 hread
        obtain ⟨c, hc⟩ := hwrites.get?_file (get?_of_stat hstat)
        exact isFile_iff.2 ⟨c, read_eq_ok_iff.2 (stat_of_keeps hwrites.keeps hstat hc)⟩

end ResourceCompiler.Native
