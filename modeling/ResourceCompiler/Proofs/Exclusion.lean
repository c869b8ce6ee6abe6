import ResourceCompiler.Proofs.Defaults
import ResourceCompiler.Proofs.FileTree.Clearing
import ResourceCompiler.Proofs.FileTree.Climbing
import ResourceCompiler.Proofs.Naming

/-!
# Outputs that are told apart

Settings are refused if two directories of their output agree component by component. This finds a
directory that is used twice wherever both paths to it are written alike. It does not find one that
is written in two ways, a directory inside another, or metadata above or inside a directory.

* `Path.components_eq`, `Path.same_iff`: a path is how it starts and the steps it asks for.
* `Path.Alike`, `Path.same_of_location_eq`: paths that are written alike.
* `Settings.distinctDirectories_eq_ok_iff`: what the check of the directories finds.
* `Settings.exclusive_iff_of_resolve`: when the outputs of settings that are not refused are apart.
-/

namespace ResourceCompiler

namespace Path

variable {p q w : Path}

/-! ### How a path starts -/

/-- What a path starts with, if it is absolute or has a dot there: the components that ask for no
step. -/
def opening (p : Path) : List Component := p.components.filter fun c => c.step?.isNone

/-- The component that a step stands for. -/
def Component.ofStep : Step → Component
  | .stay => .current
  | .up => .parent
  | .down s => .name s

theorem step?_ofSegment (segment : List Char) :
    (Component.ofSegment segment).step?.map Component.ofStep =
      some (Component.ofSegment segment) := by
  unfold Component.ofSegment
  split
  · rfl
  · rfl

theorem innerComponents_eq (segments : List (List Char)) :
    innerComponents segments = (stridesOf segments).map Component.ofStep := by
  have hall : ((fun c : Component => c.step?.map Component.ofStep) ∘ Component.ofSegment) =
      some ∘ Component.ofSegment := funext step?_ofSegment
  rw [stridesOf_eq_filterMap, List.map_filterMap, innerComponents, List.filterMap_map, hall,
    List.filterMap_eq_map]

theorem innerComponents_cons {first : List Char} (h : isIdle first = true)
    (rest : List (List Char)) : innerComponents (first :: rest) = innerComponents rest := by
  simp [innerComponents, h]

/-- Only the first component may be one that asks for no step. -/
theorem exists_components_eq (p : Path) : ∃ first : List Component,
    (∀ c ∈ first, c.step? = none) ∧ p.components = first ++ innerComponents p.segments := by
  unfold components
  split
  · rename_i heq
    exact ⟨[], List.forall_mem_nil _, by rw [heq]; rfl⟩
  · rename_i heq
    exact ⟨[], List.forall_mem_nil _, by rw [heq]; rfl⟩
  · rename_i heq
    exact ⟨[.root], List.forall_mem_singleton.2 rfl, by rw [heq, innerComponents_cons rfl]; rfl⟩
  · rename_i heq
    exact ⟨[.current], List.forall_mem_singleton.2 rfl, by rw [heq, innerComponents_cons rfl]; rfl⟩
  · rename_i heq
    exact ⟨[], List.forall_mem_nil _, by rw [heq]; rfl⟩

theorem step?_ne_none {segments : List (List Char)} {c : Component}
    (h : c ∈ innerComponents segments) : c.step? ≠ none := by
  obtain ⟨segment, -, rfl⟩ := List.mem_map.1 h
  intro hnone
  have hstep := step?_ofSegment segment
  rw [hnone] at hstep
  cases hstep

/-- **A path is how it starts and the steps it asks for.** -/
theorem components_eq (p : Path) :
    p.components = p.opening ++ p.strides.map Component.ofStep := by
  obtain ⟨first, hfirst, heq⟩ := exists_components_eq p
  have hopening : p.opening = first := by
    have hkeep : first.filter (fun c => c.step?.isNone) = first :=
      List.filter_eq_self.2 fun c hc => by rw [hfirst c hc]; rfl
    have hdrop : (innerComponents p.segments).filter (fun c => c.step?.isNone) = [] :=
      List.filter_eq_nil_iff.2 fun c hc hnone => step?_ne_none hc (Option.isNone_iff_eq_none.1 hnone)
    rw [opening, heq, List.filter_append, hkeep, hdrop, List.append_nil]
  rw [hopening, strides, ← innerComponents_eq, ← heq]

/-- Paths agree if they start alike and ask for the same steps. -/
theorem same_iff : p.same q = true ↔ p.opening = q.opening ∧ p.strides = q.strides := by
  constructor
  · intro h
    have hstrides := strides_of_same h
    rw [same, beq_iff_eq, components_eq p, components_eq q, hstrides] at h
    exact ⟨List.append_cancel_right h, hstrides⟩
  · rintro ⟨hopening, hstrides⟩
    rw [same, beq_iff_eq, components_eq p, components_eq q, hopening, hstrides]

theorem same_comm (p q : Path) : p.same q = q.same p := by
  rw [same, same, Bool.eq_iff_iff, beq_iff_eq, beq_iff_eq]
  exact eq_comm

theorem isAbsolute_iff : p.isAbsolute = true ↔ Component.root ∈ p.opening := by
  have hmem : Component.root ∈ p.opening ↔ Component.root ∈ p.components := by
    rw [opening, List.mem_filter]
    exact and_iff_left rfl
  have hinner (segments : List (List Char)) : Component.root ∉ innerComponents segments :=
    fun h => step?_ne_none h rfl
  rw [hmem, isAbsolute, beq_iff_eq]
  cases htext : p.text.toList with
  | nil =>
    have hsegments : p.segments = [[]] := by rw [segments, htext]; rfl
    rw [components, hsegments]
    exact iff_of_false (by simp) List.not_mem_nil
  | cons c r =>
    rw [List.head?_cons, Option.some.injEq]
    by_cases hc : c = '/'
    · have hsegments : p.segments = [] :: Text.fields '/' r := by
        rw [segments, htext, hc, Text.fields_sep_cons]
      obtain ⟨first, rest, hr⟩ := List.exists_cons_of_ne_nil (Text.fields_ne_nil '/' r)
      rw [components, hsegments, hr]
      exact iff_of_true hc List.mem_cons_self
    · obtain ⟨first, rest, hsegments⟩ : ∃ first rest, p.segments = (c :: first) :: rest := by
        rw [segments, htext, Text.fields, if_neg hc]
        split
        · exact ⟨_, _, rfl⟩
        · exact ⟨_, _, rfl⟩
      refine iff_of_false hc ?_
      rw [components, hsegments]
      split
      · exact List.not_mem_nil
      · exact List.not_mem_nil
      · rename_i h
        cases h
      · exact fun h => (List.mem_cons.1 h).elim Component.noConfusion (hinner _)
      · exact hinner _

theorem isAbsolute_eq_of_opening (h : p.opening = q.opening) : p.isAbsolute = q.isAbsolute := by
  rw [Bool.eq_iff_iff, isAbsolute_iff, isAbsolute_iff, h]

/-! ### Paths read from a directory -/

/-- Where a relative path leads from a directory. -/
theorem location_join (w : Path) (hp : p.isAbsolute = false) :
    (w.join p).location = p.strides.foldl Step.from w.location := by
  rw [location_eq_foldl_strides, strides_join w hp, List.foldl_append,
    ← location_eq_foldl_strides]

/-- Whether paths are written alike: they start alike, and neither goes up. -/
def Alike (p q : Path) : Prop := p.opening = q.opening ∧ p.IsPlain ∧ q.IsPlain

instance (p q : Path) : Decidable (p.Alike q) := inferInstanceAs (Decidable (_ ∧ _))

theorem IsPlain.exists_strides_eq (h : p.IsPlain) :
    ∃ names : List String, p.strides = names.map Step.down :=
  exists_eq_map_down p.stay_not_mem_strides (isPlain_iff.1 h)

/-- **Paths that are written alike and lead to one location agree**, whatever directory they are
read from. -/
theorem same_of_location_eq (halike : p.Alike q)
    (h : (w.join p).location = (w.join q).location) : p.same q = true := by
  obtain ⟨hopening, hp, hq⟩ := halike
  obtain ⟨names, hnames⟩ := hp.exists_strides_eq
  obtain ⟨names', hnames'⟩ := hq.exists_strides_eq
  have hboth : ∃ l : Location, l ++ names = l ++ names' := by
    cases habsolute : p.isAbsolute with
    | true =>
      rw [join_of_isAbsolute w habsolute,
        join_of_isAbsolute w (isAbsolute_eq_of_opening hopening ▸ habsolute),
        location_eq_foldl_strides, location_eq_foldl_strides, hnames, hnames',
        foldl_from_map_down, foldl_from_map_down] at h
      exact ⟨[], h⟩
    | false =>
      rw [location_join w habsolute,
        location_join w (isAbsolute_eq_of_opening hopening ▸ habsolute), hnames, hnames',
        foldl_from_map_down, foldl_from_map_down] at h
      exact ⟨w.location, h⟩
  obtain ⟨l, hl⟩ := hboth
  rw [same_iff, hnames, hnames', List.append_cancel_left hl]
  exact ⟨hopening, rfl⟩

theorem isAbsolute_div (p : Path) {s : String} (h : IsName s) :
    (p / s).isAbsolute = p.isAbsolute :=
  isAbsolute_join p (isAbsolute_of_isName h)

/-- A name behind a path leads to the name behind where the path leads. -/
theorem location_join_div (w p : Path) {s : String} (h : IsName s) :
    (w.join (p / s)).location = (w.join p).location ++ [s] := by
  cases habsolute : p.isAbsolute with
  | true =>
    rw [join_of_isAbsolute w habsolute,
      join_of_isAbsolute w ((isAbsolute_div p h).trans habsolute),
      location_of_strides (strides_div p h), ← location_eq_foldl_strides]
  | false =>
    rw [location_join w habsolute, location_join w ((isAbsolute_div p h).trans habsolute),
      strides_div p h, List.foldl_append]
    rfl

end Path

/-! ### What is refused -/

namespace FileTree

/-- Whether one of two locations lies inside the other. -/
def Nested (l k : Location) : Prop := l ≠ k ∧ (l <+: k ∨ k <+: l)

instance (l k : Location) : Decidable (Nested l k) := inferInstanceAs (Decidable (_ ∧ _))

/-- Locations are apart if they are neither one and the same nor nested. -/
theorem apart_iff {l k : Location} : Apart l k ↔ l ≠ k ∧ ¬ Nested l k := by
  rw [Apart, Nested, ← not_or]
  constructor
  · intro h
    refine ⟨?_, fun hnested => h hnested.2⟩
    rintro rfl
    exact h (.inl List.prefix_rfl)
  · rintro ⟨hne, hnested⟩ h
    exact hnested ⟨hne, h⟩

theorem apart_concat (l : Location) {s s' : String} (h : s ≠ s') :
    Apart (l ++ [s]) (l ++ [s']) := by
  have hname {s s' : String} (hl : l ++ [s] <+: l ++ [s']) : s = s' := by
    rw [List.prefix_append_right_inj, List.cons_prefix_cons] at hl
    exact hl.1
  exact ⟨fun hl => h (hname hl), fun hl => h (hname hl).symm⟩

end FileTree

open FileTree ResourceCompiler.Path

/-- Whether two paths lead to one location from a directory, but are not written alike. -/
def Path.Doubles (w p q : Path) : Prop :=
  (w.join p).location = (w.join q).location ∧ ¬ p.Alike q

instance (w p q : Path) : Decidable (w.Doubles p q) := inferInstanceAs (Decidable (_ ∧ _))

/-- The output places read from a directory. -/
def OutputPaths.rebase (w : Path) (o : OutputPaths) : OutputPaths where
  resources := w.join o.resources
  assets := w.join o.assets
  sources := w.join o.sources
  metadata := w.join o.metadata

/-- The conventional places are apart, whatever directory they are read from. -/
theorem OutputPaths.exclusive_under (w root : Path) : ((under root).rebase w).Exclusive := by
  have hplaces : ((under root).rebase w).places =
      ["res", "assets", "src", "metadata.json"].map fun s => w.join (root / s) := rfl
  have hnames : ∀ s ∈ ["res", "assets", "src", "metadata.json"], IsName s := by decide
  have hdistinct : ["res", "assets", "src", "metadata.json"].Pairwise (· ≠ ·) := by decide
  rw [Exclusive, hplaces, List.pairwise_map]
  refine hdistinct.imp_of_mem fun {s s'} hs hs' hne => ?_
  rw [location_join_div w root (hnames s hs), location_join_div w root (hnames s' hs')]
  exact apart_concat _ hne

namespace Settings

/-- The check of the directories finds those that agree component by component. -/
theorem distinctDirectories_eq_ok_iff {earlier ds : List Path} :
    distinctDirectories earlier ds = .ok () ↔
      (∀ e ∈ earlier, ∀ d ∈ ds, e.same d = false) ∧ ds.Pairwise fun d e => d.same e = false := by
  induction ds generalizing earlier with
  | nil => simp [distinctDirectories]
  | cons d rest ih =>
    rw [distinctDirectories, List.pairwise_cons]
    cases hany : earlier.any d.same with
    | true =>
      obtain ⟨e, he, hsame⟩ := List.any_eq_true.1 hany
      refine iff_of_false (by simp) fun h => ?_
      rw [same_comm, h.1 e he d List.mem_cons_self] at hsame
      cases hsame
    | false =>
      have hother : ∀ e ∈ earlier, e.same d = false := by
        intro e he
        rw [same_comm]
        exact Bool.eq_false_iff.2 fun h => by rw [List.any_eq_true.2 ⟨e, he, h⟩] at hany; cases hany
      rw [if_neg Bool.false_ne_true, ih]
      constructor
      · rintro ⟨hearlier, hrest⟩
        refine ⟨fun e he => List.forall_mem_cons.2 ⟨hother e he, ?_⟩,
          hearlier d List.mem_cons_self, hrest⟩
        exact hearlier e (List.mem_cons_of_mem d he)
      · rintro ⟨hearlier, hd, hrest⟩
        refine ⟨List.forall_mem_cons.2 ⟨hd, fun e he => ?_⟩, hrest⟩
        exact (List.forall_mem_cons.1 (hearlier e he)).2

/-- **Outputs of settings that are not refused.** No two of the directories agree component by
component. Read from a directory, the outputs are apart unless a directory is written in two ways,
lies inside another, or the metadata are one of the directories, above or inside one. Settings that
only have an output root are apart. -/
theorem exclusive_iff_of_resolve {s : Settings} {c : Configuration} (h : s.resolve = .ok c)
    (w : Path) :
    c.output.directories.Pairwise (fun d e => d.same e = false) ∧
      ((c.output.rebase w).Exclusive ↔
        c.output.directories.Pairwise (fun d e => ¬ w.Doubles d e ∧
          ¬ Nested (w.join d).location (w.join e).location) ∧
        ∀ d ∈ c.output.directories,
          Apart (w.join d).location (w.join c.output.metadata).location) ∧
      ((∃ root, s.output = some { root := some root }) → (c.output.rebase w).Exclusive) := by
  have houtput := outputPaths_of_resolve h
  obtain ⟨-, -, -, -, hdistinct⟩ := outputPaths_eq_ok houtput
  have hunlike := (distinctDirectories_eq_ok_iff.1 hdistinct).2
  have hpair (d e : Path) (hsame : d.same e = false) :
      Apart (w.join d).location (w.join e).location ↔
        ¬ w.Doubles d e ∧ ¬ Nested (w.join d).location (w.join e).location := by
    rw [apart_iff]
    refine and_congr_left fun _ => ⟨fun hne hdoubles => hne hdoubles.1, fun hdoubles hl => ?_⟩
    -- paths that are written alike would have been found
    have halike : d.Alike e := by_contra fun halike => hdoubles ⟨hl, halike⟩
    rw [same_of_location_eq halike hl] at hsame
    cases hsame
  refine ⟨hunlike, ?_, ?_⟩
  · have hplaces : (c.output.rebase w).places =
        c.output.directories.map w.join ++ [w.join c.output.metadata] := rfl
    rw [OutputPaths.Exclusive, hplaces, List.pairwise_append, List.pairwise_map, List.forall_mem_map]
    simp only [List.pairwise_singleton, true_and, List.forall_mem_singleton]
    refine and_congr_left fun _ => ⟨fun hapart => ?_, fun hneither => ?_⟩
    · exact (hunlike.and hapart).imp fun hboth => (hpair _ _ hboth.1).1 hboth.2
    · exact (hunlike.and hneither).imp fun hboth => (hpair _ _ hboth.1).2 hboth.2
  · rintro ⟨root, hroot⟩
    rw [hroot, Option.getD_some] at houtput
    rw [eq_under_of_outputPaths houtput]
    exact OutputPaths.exclusive_under w root

/-! ### A directory written in two ways, and one inside another -/

namespace Overlap

/-- The source set of a pass. -/
def own : SourceSet := ⟨⟨"overlapMain", by decide⟩, ⟨"main"⟩⟩

/-- The package of a pass. -/
def package : PackageName := ⟨"overlap", by decide⟩

/-- One directory that is written in two ways. -/
def twice : OutputPaths := ⟨⟨"out"⟩, ⟨"./out"⟩, ⟨"src"⟩, ⟨"metadata.json"⟩⟩

/-- A directory inside the one that is cleared behind it. -/
def inside : OutputPaths := ⟨⟨"out/res"⟩, ⟨"out"⟩, ⟨"src"⟩, ⟨"metadata.json"⟩⟩

end Overlap

theorem exclusive_iff_of_resolve_overlap : ∃ c c',
    (least Overlap.own Overlap.package Overlap.twice).resolve = .ok c ∧
      ¬ (c.output.rebase ⟨"/work"⟩).Exclusive ∧
      (least Overlap.own Overlap.package Overlap.inside).resolve = .ok c' ∧
      ¬ (c'.output.rebase ⟨"/work"⟩).Exclusive := by
  have htwice := resolve_least Overlap.own Overlap.package (show distinctDirectories []
    Overlap.twice.directories = .ok () from rfl)
  have hinside := resolve_least Overlap.own Overlap.package (show distinctDirectories []
    Overlap.inside.directories = .ok () from rfl)
  obtain ⟨-, hexclusive, -⟩ := exclusive_iff_of_resolve htwice ⟨"/work"⟩
  obtain ⟨-, hexclusive', -⟩ := exclusive_iff_of_resolve hinside ⟨"/work"⟩
  refine ⟨_, _, htwice, ?_, hinside, ?_⟩
  · rw [hexclusive]
    decide
  · rw [hexclusive']
    decide

/-- Clearing output removes a directory inside one that is cleared behind it. -/
example : ((Overlap.inside.clear).run .empty).2.stat Overlap.inside.resources =
    .error .notFound := by decide +kernel

end Settings

end ResourceCompiler
