import ResourceCompiler.Proofs.FileTree.Confinement
import ResourceCompiler.Proofs.Growth

/-!
# What a pass may touch

A pass owns its output: what is at or in the places that it writes to, and the file beside its
artifact. Everything else stays as it is, whether the pass succeeds or fails at any stage, but for
missing directories on the ways to its output, which it may make.

* `OutputPaths.LeadsThrough`: the locations on the ways to output.
* `confined_storing`, `Native.Plan.confined_perform`, `OutputPaths.confined_clear`: what storing
  an artifact, carrying out a plan and clearing keep to.
* `Configuration.footprint_of_run`: what a pass keeps to.
-/

namespace ResourceCompiler

open FileAction FileTree Native

/-! ### Storing an artifact -/

section Storing

variable {owned way : Location → Prop} {p q : Path}

theorem confined_rename (hp : owned p.location) (hq : owned q.location) :
    Confined owned way (change fun t => t.rename p q) := by
  refine .change ?_
  intro t s hs l hl
  have hsource : l ≠ p.location := by
    rintro rfl
    exact hl hp
  have htarget : l ≠ q.location := by
    rintro rfl
    exact hl hq
  obtain ⟨c, hc, -⟩ := rename_eq_ok hs
  rw [KeepsAt, get?_rename hc hs, if_neg htarget, if_neg hsource]
  exact .inl rfl

/-- Storing an artifact keeps to its place and the file beside it. -/
theorem confined_storing (hp : owned p.location) (htemporary : owned (Store.temporary p).location)
    (hway : ∀ l, p.Through l → owned l ∨ way l) (a : Artifact) :
    Confined owned way (Store.write p a) := by
  have hrequests : ∀ r ∈ Store.requests p a.text.toUTF8, Confined owned way r.2 := by
    simp only [Store.requests, List.forall_mem_cons]
    refine ⟨?_, ?_, ?_, ?_, List.forall_mem_nil _⟩
    · exact confined_createHolders hway
    · exact confined_write htemporary .empty
    · exact confined_write htemporary a.text.toUTF8
    · exact confined_rename htemporary hp
  refine .bind (.each fun r hr => (hrequests r hr).mapError _) ?_
  intro done
  exact .pure ()

end Storing

/-! ### Native output -/

namespace Native

variable {owned way : Location → Prop} {d : Path} {x : Output} {plan : Plan}

theorem Output.confined_perform (hx : owned x.path.location)
    (hway : ∀ l, x.path.Through l → owned l ∨ way l) : Confined owned way x.perform := by
  cases x with
  | document path text =>
    refine .bind ((confined_createHolders hway).mapError _) fun _ => ?_
    refine .bind ((confined_write hx text.toUTF8).mapError _) fun _ => ?_
    exact .pure path
  | image platform key source target =>
    refine .bind (.ask _) ?_
    intro there
    cases there with
    | false => exact .fail _
    | true =>
      refine .bind ((confined_createHolders hway).mapError _) fun _ => ?_
      refine .bind ((confined_copyFile hx source).mapError _) fun _ => ?_
      exact .pure target

/-- The way to a file of output leads to the directory that it is in, and on in there. -/
theorem Output.Inside.confined_perform (hx : x.Inside d) (howned : ∀ l, d.location <+: l → owned l)
    (hway : ∀ l, d.Through l → way l) : Confined owned way x.perform := by
  refine Output.confined_perform ?_ ?_
  · obtain ⟨names, -, hlocation⟩ := hx.exists_location
    exact howned _ ⟨names, hlocation.symm⟩
  · obtain ⟨names, -, hnames, hpath⟩ := hx
    intro l hl
    rw [hpath] at hl
    rcases hl.of_descend hnames with hl | hl
    · exact .inr (hway l hl)
    · exact .inl (howned l hl)

/-- A plan keeps to its files, as far as it is carried out. -/
theorem Plan.confined_perform (h : ∀ x, .ok x ∈ plan → Confined owned way x.perform) :
    Confined owned way plan.perform := by
  refine .each ?_
  intro step hstep
  cases step with
  | ok x => exact h x hstep
  | error e => exact .fail e

/-- **Generators name only files below the three directories**, whatever they are given. -/
theorem Generators.exists_inside {settings : GeneratorSettings} {platform : Platform}
    {g : Generators} (hg : ofPlatform settings platform = .ok g) (resources : Resources)
    (objects : List ResourceObject) (hx : .ok x ∈ g.resourcePlan resources ++ g.holder objects) :
    ∃ d ∈ settings.output.directories, x.Inside d := by
  rcases List.mem_append.1 hx with hx | hx
  · obtain ⟨k, -, hk⟩ := List.mem_flatMap.1 hx
    rcases inside_of_mem_resources hg hk with hin | hin
    · exact ⟨_, by simp [OutputPaths.directories], hin⟩
    · exact ⟨_, by simp [OutputPaths.directories], hin⟩
  · rcases holder_eq hg objects with hnone | ⟨y, hy, hin⟩
    · rw [hnone] at hx
      cases hx
    · rw [hy] at hx
      obtain rfl := Except.ok.inj (List.mem_singleton.1 hx)
      exact ⟨_, by simp [OutputPaths.directories], hin⟩

end Native

/-! ### A pass -/

namespace OutputPaths

variable {o : OutputPaths} {p : Path} {l : Location}

/-- Whether a location is on the way to a place that a pass owns. -/
def LeadsThrough (o : OutputPaths) (l : Location) : Prop := ∃ p ∈ o.places, p.Through l

theorem owns_of_within (hp : p ∈ o.places) (hl : p.location <+: l) : o.Owns l :=
  .inl ⟨p, hp, hl⟩

theorem leadsThrough_of_through (hp : p ∈ o.places) (hl : p.Through l) : o.LeadsThrough l :=
  ⟨p, hp, hl⟩

/-- Clearing keeps to the output. -/
theorem confined_clear (o : OutputPaths) : Confined o.Owns o.LeadsThrough o.clear := by
  refine .bind (.each ?_) ?_
  · intro d hd
    have hplace := mem_places_of_mem_directories hd
    refine .bind (confined_removeAll fun l => owns_of_within hplace) ?_
    intro _
    exact confined_createDirectories fun l hl => .inr (leadsThrough_of_through hplace hl)
  · intro _
    exact confined_removeAll fun l => owns_of_within o.metadata_mem_places

end OutputPaths

namespace Configuration

open OutputPaths

variable {c : Configuration} {g : Generators}

theorem confined_plan (hg : Generators.ofPlatform c.generatorSettings c.platform = .ok g)
    (resources : Resources) (objects : List ResourceObject) {plan : Plan}
    (hplan : plan ⊆ g.resourcePlan resources ++ g.holder objects) :
    Confined c.output.Owns c.output.LeadsThrough plan.perform := by
  refine Plan.confined_perform ?_
  intro x hx
  obtain ⟨d, hd, hin⟩ := Generators.exists_inside hg resources objects (hplan hx)
  have hplace := mem_places_of_mem_directories hd
  exact hin.confined_perform (fun l => owns_of_within hplace)
    fun l => leadsThrough_of_through hplace

/-- Every stage keeps to the output. -/
theorem confined_execute (c : Configuration) :
    Confined c.output.Owns c.output.LeadsThrough c.execute := by
  have hmetadata := c.output.metadata_mem_places
  refine .bind_of_run ((Confined.ofExcept _).mapError _) ?_
  intro t g u hrun
  obtain ⟨hg, -⟩ := run_ofExcept_eq (run_mapError_eq_ok hrun)
  refine .bind ((Confined.examine _).mapError _) fun linked => ?_
  refine .bind (c.output.confined_clear.mapError _) fun _ => ?_
  refine .bind ((Confined.examine _).mapError _) fun collected => ?_
  refine .bind ((Confined.examine _).mapError _) fun built => ?_
  refine .bind ((Confined.ofExcept _).mapError _) fun merged => ?_
  have hnative : Confined c.output.Owns c.output.LeadsThrough (g.generateResources merged) := by
    refine .bind (confined_plan hg merged [] (List.subset_append_left _ _)) fun paths => ?_
    exact .pure (distinctPaths paths)
  have hholder (objects : List ResourceObject) :
      Confined c.output.Owns c.output.LeadsThrough (g.generateHolder objects) :=
    confined_plan hg merged objects (List.subset_append_right _ _)
  have hstore (a : Artifact) :
      Confined c.output.Owns c.output.LeadsThrough (Store.write c.output.metadata a) := by
    refine confined_storing (owns_of_within hmetadata List.prefix_rfl) (.inr rfl) ?_ a
    intro l hl
    exact .inr (leadsThrough_of_through hmetadata hl)
  refine .bind (hnative.mapError _) fun native => ?_
  refine .bind ((hholder _).mapError _) fun holder => ?_
  refine .bind ((hstore _).mapError _) fun _ => ?_
  exact .pure _

/-- So does clearing after a failure. -/
theorem confined_run (c : Configuration) : Confined c.output.Owns c.output.LeadsThrough c.run := by
  refine .bind (confined_execute c).attempt ?_
  intro r
  cases r with
  | ok outcome => exact .pure outcome
  | error failure => exact .bind (confined_clear c.output).attempt fun _ => .fail failure

/-- What a successful pass lists are files that its generators name. -/
theorem exists_descend_of_mem_written {t s : FileTree} {outcome : Outcome}
    (h : c.run.run t = (.ok outcome, s)) {p : Path} (hp : p ∈ outcome.written) :
    ∃ d ∈ c.output.directories, ∃ names, names ≠ [] ∧ (∀ n ∈ names, Path.IsName n) ∧
      p = d.descend names := by
  obtain ⟨u, v, outputs, holders, hperformed⟩ := performed_of_run h
  obtain ⟨x, hx, rfl⟩ := hperformed.exists_output hp
  exact hperformed.inside hx

/-- **A pass touches only its output**, whether it succeeds or fails. Whatever resources and objects
they are given, its generators name only files that names lead down to from one of its three
directories, and such files are what a successful pass lists. What is neither at or in a place that
it owns, nor the file beside its artifact, stays as it is, but for missing directories on the ways
to its places. -/
theorem footprint_of_run (c : Configuration) (t : FileTree) :
    (∀ g, Generators.ofPlatform c.generatorSettings c.platform = .ok g →
      ∀ (resources : Resources) (objects : List ResourceObject) (x : Output),
        .ok x ∈ g.resourcePlan resources ++ g.holder objects →
          ∃ d ∈ c.output.directories, x.Inside d) ∧
      (∀ outcome, (c.run.run t).1 = .ok outcome → ∀ p ∈ outcome.written,
        ∃ d ∈ c.output.directories, ∃ names, names ≠ [] ∧ (∀ n ∈ names, Path.IsName n) ∧
          p = d.descend names) ∧
      ∀ l, ¬ c.output.Owns l →
        t.KeepsAt (c.run.run t).2 l (∃ p ∈ c.output.places, p.Through l) := by
  refine ⟨?_, ?_, ?_⟩
  · intro g hg resources objects x hx
    exact Generators.exists_inside hg resources objects hx
  · intro outcome hrun p hp
    exact exists_descend_of_mem_written (run_eq_of_fst hrun) hp
  · intro l hl
    exact confined_run c t l hl

end Configuration

/-! ### Notes beside the output -/

namespace Notes

/-- A pass that links an artifact which is not there. -/
def config : Configuration :=
  { Configuration.ofDefaults ⟨⟨"notesMain", by decide⟩, ⟨"notes"⟩⟩ ⟨"notes", by decide⟩
      (.under ⟨"out"⟩) with
    platform := .jvm
    inputMetadata := [⟨"lib.json"⟩] }

/-- Notes beside the output, and a file in it. -/
def tree : FileTree where
  nodes := OrderedMap.ofList [(["out"], .directory), (["out", "todo.txt"], .file ⟨#[33]⟩),
    (["out", "res"], .directory), (["out", "res", "old.txt"], .file .empty)]
  rooted := by decide +kernel

def generators : Native.Generators :=
  ⟨Native.Jvm.plan config.package config.className config.output.resources,
    Native.Holder.descriptor config.package config.className config.output.sources⟩

/-- An image from outside of the resources. -/
def merged : Resources
  | .strings => []
  | .plurals => []
  | .images => [⟨⟨"memo", by decide⟩, OrderedMap.ofList [(.unmarked, ⟨⟨"../memo.png"⟩, .png⟩)]⟩]
  | .colors => []

end Notes

/-- The pass fails and clears its output, and the notes stay. -/
theorem Configuration.footprint_of_run_notes :
    (Notes.config.run.run Notes.tree).1.isOk = false ∧
      (Notes.config.run.run Notes.tree).2.get? ["out", "res", "old.txt"] = none ∧
      (Notes.config.run.run Notes.tree).2.get? ["out", "todo.txt"] = some (.file ⟨#[33]⟩) ∧
      ∃ d ∈ Notes.config.output.directories, Native.Output.Inside d
        (.image "jvm" ⟨"memo", by decide⟩ ⟨"../memo.png"⟩ ⟨"out/res/images/memo.png"⟩) := by
  obtain ⟨hplan, -, hkeeps⟩ := Configuration.footprint_of_run Notes.config Notes.tree
  refine ⟨by decide +kernel, by decide +kernel, ?_, ?_⟩
  · have howned : ¬ Notes.config.output.Owns ["out", "todo.txt"] := by decide +kernel
    exact (hkeeps _ howned).get?_of_some (by decide +kernel)
  · refine hplan Notes.generators rfl Notes.merged [] _ (List.mem_append_left _ ?_)
    exact List.mem_singleton_self _

end ResourceCompiler
