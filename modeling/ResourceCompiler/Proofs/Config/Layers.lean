import Mathlib.Data.List.Induction
import ResourceCompiler.Config.Settings

/-!
# Layers of settings

Settings are laid over each other field by field. Output is the exception: a root moves all of it,
and so leaves out the paths that the layers below it set on their own. What a stack of layers comes
to does not depend on how the layers are grouped.

* `OutputPlace`, `Settings.own`, `Settings.outputRoot`: what a layer sets for output.
* `Settings.own_overlay`, `Settings.outputRoot_overlay`: what one layer over another sets.
* `Settings.stacked`, `Settings.own_stacked_eq_some_iff`: what a stack of layers sets.
* `Settings.overlay_laws`: layers are a monoid, and a root cuts off the paths below it.
-/

namespace ResourceCompiler

/-- The four outputs of a pass. -/
inductive OutputPlace where
  | resources
  | assets
  | sources
  | metadata
deriving DecidableEq

/-! ### Output settings -/

namespace OutputSettings

variable {l u o o' : OutputSettings}

/-- The path that is set for an output on its own. -/
def own (o : OutputSettings) : OutputPlace → Option Path
  | .resources => o.resources
  | .assets => o.assets
  | .sources => o.sources
  | .metadata => o.metadata

/-- Output settings are their root and the paths of their own. -/
theorem ext_own (hroot : o.root = o'.root) (hown : ∀ x, o.own x = o'.own x) : o = o' := by
  cases o
  cases o'
  obtain rfl := hroot
  obtain rfl := hown .resources
  obtain rfl := hown .assets
  obtain rfl := hown .sources
  obtain rfl := hown .metadata
  rfl

theorem root_overlay (l u : OutputSettings) : (l.overlay u).root = u.root.or l.root := by
  unfold overlay
  cases u.root <;> rfl

/-- A path is that of the upper settings, or that of the lower ones if no root is laid over them. -/
theorem own_overlay (l u : OutputSettings) (x : OutputPlace) :
    (l.overlay u).own x = (u.own x).or (if u.root.isSome then none else l.own x) := by
  unfold overlay
  cases u.root <;> cases x <;> rfl

theorem overlay_empty (o : OutputSettings) : o.overlay {} = o := rfl

theorem empty_overlay (o : OutputSettings) : overlay {} o = o := by
  refine ext_own ?_ fun x => ?_
  · rw [root_overlay, Option.or_none]
  · have hnone : own {} x = none := by cases x <;> rfl
    rw [own_overlay, hnone, ite_self, Option.or_none]

theorem overlay_assoc (a b c : OutputSettings) :
    (a.overlay b).overlay c = a.overlay (b.overlay c) := by
  refine ext_own ?_ fun x => ?_
  · simp only [root_overlay, Option.or_assoc]
  · -- both sides look at `c`, then at `b` below no root of `c`, then at `a` below no root at all
    simp only [own_overlay, root_overlay]
    cases c.root with
    | some r => simp
    | none =>
      cases b.root with
      | some r => simp
      | none => simp [Option.or_assoc]

end OutputSettings

/-! ### Settings -/

namespace Settings

variable {a b c : Settings}

/-- What a layer sets for output, which may be nothing. -/
def outputSettings (s : Settings) : OutputSettings := s.output.getD {}

/-- The path that a layer sets for an output on its own. -/
def own (s : Settings) (x : OutputPlace) : Option Path := s.outputSettings.own x

/-- The output root that a layer sets. -/
def outputRoot (s : Settings) : Option Path := s.outputSettings.root

theorem output_overlay (a b : Settings) :
    (a.overlay b).output = Option.merge OutputSettings.overlay a.output b.output := by
  unfold overlay
  cases a.output <;> cases b.output <;> rfl

theorem outputSettings_overlay (a b : Settings) :
    (a.overlay b).outputSettings = a.outputSettings.overlay b.outputSettings := by
  unfold outputSettings
  rw [output_overlay]
  cases a.output with
  | none =>
    cases b.output with
    | none => rfl
    | some u => exact (OutputSettings.empty_overlay u).symm
  | some l =>
    cases b.output with
    | none => exact (OutputSettings.overlay_empty l).symm
    | some u => rfl

theorem outputRoot_overlay (a b : Settings) :
    (a.overlay b).outputRoot = b.outputRoot.or a.outputRoot := by
  rw [outputRoot, outputSettings_overlay]
  exact OutputSettings.root_overlay a.outputSettings b.outputSettings

/-- A path is that of the upper layer, or that of the lower one if no root is laid over it. -/
theorem own_overlay (a b : Settings) (x : OutputPlace) :
    (a.overlay b).own x = (b.own x).or (if b.outputRoot.isSome then none else a.own x) := by
  rw [own, outputSettings_overlay]
  exact OutputSettings.own_overlay a.outputSettings b.outputSettings x

theorem overlay_empty (a : Settings) : a.overlay {} = a := by
  cases a with
  | mk _ _ _ _ _ _ _ _ _ _ _ _ output =>
    cases output <;> rfl

theorem overlay_assoc (a b c : Settings) : (a.overlay b).overlay c = a.overlay (b.overlay c) := by
  have houtput : ((a.overlay b).overlay c).output = (a.overlay (b.overlay c)).output := by
    simp only [output_overlay]
    cases a.output <;> cases b.output <;> cases c.output <;>
      simp [Option.merge, OutputSettings.overlay_assoc]
  -- the other settings are laid over each other one by one
  unfold overlay at houtput ⊢
  simp only [Option.or_assoc, Settings.mk.injEq, true_and]
  exact houtput

/-! ### Stacks of layers -/

/-- What a stack of layers comes to, with the lowest layer first. -/
def stacked (layers : List Settings) : Settings := layers.foldl overlay {}

theorem stacked_concat (layers : List Settings) (s : Settings) :
    stacked (layers ++ [s]) = (stacked layers).overlay s := by
  rw [stacked, List.foldl_append]
  rfl

section

variable {P Q : Settings → Prop}

theorem not_exists_split_nil :
    ¬ ∃ below s above, ([] : List Settings) = below ++ s :: above ∧ P s ∧ ∀ u ∈ above, Q u := by
  rintro ⟨below, s, above, heq, -⟩
  exact List.append_ne_nil_of_right_ne_nil below (List.cons_ne_nil s above) heq.symm

/-- What is looked for in a stack is its topmost layer, or lies below it. -/
theorem exists_split_concat_iff (layers : List Settings) (t : Settings) :
    (∃ below s above, layers ++ [t] = below ++ s :: above ∧ P s ∧ ∀ u ∈ above, Q u) ↔
      P t ∨ (Q t ∧ ∃ below s above, layers = below ++ s :: above ∧ P s ∧ ∀ u ∈ above, Q u) := by
  constructor
  · rintro ⟨below, s, above, heq, hs, habove⟩
    rcases List.eq_nil_or_concat above with rfl | ⟨rest, u, rfl⟩
    · obtain ⟨-, ht⟩ := List.append_inj' heq rfl
      rw [List.singleton_inj.1 ht]
      exact .inl hs
    · rw [List.concat_eq_append] at heq habove
      rw [← List.cons_append, ← List.append_assoc] at heq
      obtain ⟨hlayers, ht⟩ := List.append_inj' heq rfl
      rw [List.singleton_inj.1 ht]
      obtain ⟨hrest, hu⟩ := List.forall_mem_append.1 habove
      exact .inr ⟨List.forall_mem_singleton.1 hu, below, s, rest, hlayers, hs, hrest⟩
  · rintro (ht | ⟨ht, below, s, above, rfl, hs, habove⟩)
    · exact ⟨layers, t, [], rfl, ht, List.forall_mem_nil _⟩
    · refine ⟨below, s, above ++ [t], by rw [List.append_assoc, List.cons_append], hs, ?_⟩
      exact List.forall_mem_append.2 ⟨habove, List.forall_mem_singleton.2 ht⟩

end

/-- **Which path a stack of layers sets.** A path counts exactly if no layer above it sets a root or
another path for the same output. -/
theorem own_stacked_eq_some_iff (layers : List Settings) (x : OutputPlace) (p : Path) :
    (stacked layers).own x = some p ↔ ∃ below s above, layers = below ++ s :: above ∧
      s.own x = some p ∧ ∀ u ∈ above, u.outputRoot = none ∧ u.own x = none := by
  induction layers using List.reverseRecOn with
  | nil => exact iff_of_false (fun h => by cases x <;> cases h) not_exists_split_nil
  | append_singleton layers t ih =>
    rw [stacked_concat, own_overlay, exists_split_concat_iff, ← ih, Option.or_eq_some_iff]
    cases t.outputRoot <;> simp

/-- **Which root a stack of layers sets**: the topmost one. -/
theorem outputRoot_stacked_eq_some_iff (layers : List Settings) (r : Path) :
    (stacked layers).outputRoot = some r ↔ ∃ below s above, layers = below ++ s :: above ∧
      s.outputRoot = some r ∧ ∀ u ∈ above, u.outputRoot = none := by
  induction layers using List.reverseRecOn with
  | nil => exact iff_of_false (fun h => by cases h) not_exists_split_nil
  | append_singleton layers t ih =>
    rw [stacked_concat, outputRoot_overlay, exists_split_concat_iff, ← ih, Option.or_eq_some_iff]

/-- **Layers are a monoid.** Layers can be grouped in any way, and a layer that sets nothing changes
nothing. For output, a root leaves out the paths that the layers below it set on their own, and none
of those above it. -/
theorem overlay_laws :
    (∀ a b c : Settings, (a.overlay b).overlay c = a.overlay (b.overlay c)) ∧
      (∀ a : Settings, overlay {} a = a) ∧ (∀ a : Settings, a.overlay {} = a) ∧
      (∀ (layers : List Settings) (r : Path), (stacked layers).outputRoot = some r ↔
        ∃ below s above, layers = below ++ s :: above ∧ s.outputRoot = some r ∧
          ∀ u ∈ above, u.outputRoot = none) ∧
      ∀ (layers : List Settings) (x : OutputPlace) (p : Path), (stacked layers).own x = some p ↔
        ∃ below s above, layers = below ++ s :: above ∧ s.own x = some p ∧
          ∀ u ∈ above, u.outputRoot = none ∧ u.own x = none :=
  ⟨overlay_assoc, empty_overlay, overlay_empty, outputRoot_stacked_eq_some_iff,
    own_stacked_eq_some_iff⟩

/-- A root in the middle of three layers. -/
example :
    let file : Settings := { output := some { resources := some ⟨"generated/res"⟩ } }
    let moved : Settings := { output := some { root := some ⟨"build"⟩ } }
    let flags : Settings := { output := some { assets := some ⟨"generated/assets"⟩ } }
    ((file.overlay moved).overlay flags).output =
      some { root := some ⟨"build"⟩, assets := some ⟨"generated/assets"⟩ } := by decide

end Settings

end ResourceCompiler
