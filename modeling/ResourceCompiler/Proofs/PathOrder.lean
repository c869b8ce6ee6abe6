import ResourceCompiler.Proofs.Exclusion
import ResourceCompiler.Proofs.Independence

/-!
# The order of paths

Paths are ordered component by component, not by their texts: a directory comes before all that is
below it, and what is below comes before a name that the name of the directory begins. Below one
root this is the order of the names on the way.

* `Path.Component.before`, `Path.Before`: the order of components and of paths.
* `Source.precedes_append`, `Source.precedes_map`: what lists have in common does not matter.
* `Path.opening_eq`, `Path.components_join_names`: the components of a path with names behind it.
* `Source.before_pathBelow_iff`: the order of what is below a root.
-/

namespace ResourceCompiler

namespace Source

variable {α β : Type} [DecidableEq α] [DecidableEq β]

/-- What two lists both start with does not matter to their order. -/
theorem precedes_append (before : α → α → Bool) (cs as bs : List α) :
    precedes before (cs ++ as) (cs ++ bs) = precedes before as bs := by
  induction cs with
  | nil => rfl
  | cons c cs ih => rw [List.cons_append, List.cons_append, precedes, if_pos rfl, ih]

/-- Items that stand for others are in the order of these. -/
theorem precedes_map {f : α → β} (hf : Function.Injective f) {before : α → α → Bool}
    {before' : β → β → Bool} (hbefore : ∀ a b, before' (f a) (f b) = before a b) (as bs : List α) :
    precedes before' (as.map f) (bs.map f) = precedes before as bs := by
  induction as generalizing bs with
  | nil => rfl
  | cons a as ih =>
    cases bs with
    | nil => rfl
    | cons b bs =>
      rw [List.map_cons, List.map_cons, precedes, precedes, ih, hbefore]
      simp only [hf.eq_iff]

end Source

namespace Path

/-- The rank of a component: the root, a dot, two dots, and then the names. -/
def Component.rank : Component → Nat
  | .root => 0
  | .current => 1
  | .parent => 2
  | .name _ => 3

/-- Whether a component comes before another one. Names are in the order of their code points. -/
def Component.before : Component → Component → Bool
  | .name s, .name s' => Source.namePrecedes s s'
  | c, c' => decide (c.rank < c'.rank)

theorem orders_before : Source.Orders Component.before where
  total := by
    intro a b hne
    cases a <;> cases b
    case name.name x y =>
      exact Source.orders_namePrecedes.total x y fun h => hne (congrArg Component.name h)
    all_goals simp [Component.before, Component.rank] at hne ⊢
  antisymm := by
    intro a b hab hba
    cases a <;> cases b
    case name.name x y =>
      exact congrArg Component.name (Source.orders_namePrecedes.antisymm x y hab hba)
    all_goals simp [Component.before, Component.rank] at hab hba ⊢
  trans := by
    intro a b c hab hbc
    cases a <;> cases b <;> cases c
    case name.name.name x y z => exact Source.orders_namePrecedes.trans x y z hab hbc
    all_goals simp [Component.before, Component.rank] at hab hbc ⊢

/-- Whether a path comes before another one: the first components that differ decide. -/
def Before (p q : Path) : Prop :=
  Source.precedes Component.before p.components q.components = true ∧ p.components ≠ q.components

instance (p q : Path) : Decidable (p.Before q) := inferInstanceAs (Decidable (_ ∧ _))

variable {p q : Path}

/-- No path comes before one that comes before it. -/
theorem Before.asymm (h : p.Before q) : ¬ q.Before p :=
  fun h' => h.2 ((Source.orders_precedes orders_before).antisymm _ _ h.1 h'.1)

/-! ### Names behind a path -/

theorem filter_innerComponents (segments : List (List Char)) :
    (innerComponents segments).filter (fun c => c.step?.isNone) = [] :=
  List.filter_eq_nil_iff.2 fun _ hc hnone => step?_ne_none hc (Option.isNone_iff_eq_none.1 hnone)

/-- How a path starts is seen from its first segment. -/
theorem opening_eq (p : Path) : p.opening =
    if p.isAbsolute then [.root] else if p.segments.head? = some ['.'] then [.current] else [] := by
  have habsolute : p.isAbsolute = decide (Component.root ∈ p.opening) := by
    rw [Bool.eq_iff_iff, isAbsolute_iff, decide_eq_true_iff]
  rw [habsolute, opening, components]
  split
  · rename_i heq
    exact absurd heq (Text.fields_ne_nil _ _)
  · rename_i heq
    rw [heq]
    rfl
  · rw [List.filter_cons_of_pos rfl, filter_innerComponents]
    rfl
  · rename_i heq
    rw [heq, List.filter_cons_of_pos rfl, filter_innerComponents]
    rfl
  · rename_i hdot heq
    have hhead : p.segments.head? ≠ some ['.'] := by
      rw [heq, List.head?_cons]
      exact fun h => hdot (Option.some.inj h)
    rw [filter_innerComponents, if_neg hhead]
    rfl

/-- A path keeps its start with a relative one behind it. -/
theorem opening_join (p : Path) (hq : q.isAbsolute = false)
    (hdot : q.segments.head? ≠ some ['.']) : (p.join q).opening = p.opening := by
  rw [opening_eq, opening_eq, isAbsolute_join p hq]
  have hhead : (p.join q).segments.head? = some ['.'] ↔ p.segments.head? = some ['.'] := by
    rw [segments, segments, text_join p hq]
    split
    · rename_i hend
      rcases hend with hempty | hlast
      · rw [String.toList_append, hempty, List.nil_append]
        exact iff_of_false hdot (by decide)
      · obtain ⟨as, has⟩ := List.getLast?_eq_some_iff.1 hlast
        rw [String.toList_append, has, List.append_assoc, List.singleton_append,
          Text.fields_append_sep_append, Text.fields_append_sep_append,
          List.head?_append_of_ne_nil _ (Text.fields_ne_nil _ _),
          List.head?_append_of_ne_nil _ (Text.fields_ne_nil _ _)]
    · have htext : (p.text ++ "/" ++ q.text).toList = p.text.toList ++ '/' :: q.text.toList := by
        rw [String.toList_append, String.toList_append, List.append_assoc]
        rfl
      rw [htext, Text.fields_append_sep_append,
        List.head?_append_of_ne_nil _ (Text.fields_ne_nil _ _)]
  simp only [hhead]

/-- **The components of a path with names behind it** are its own and the names. -/
theorem components_join_names (p : Path) {names : List String} (h : ∀ s ∈ names, IsName s) :
    (p.join ⟨"/".intercalate names⟩).components = p.components ++ names.map .name := by
  have hdot : (⟨"/".intercalate names⟩ : Path).segments.head? ≠ some ['.'] := by
    cases names with
    | nil => decide
    | cons a names =>
      rw [segments, Text.fields_intercalate (List.cons_ne_nil a names) fun s hs => (h s hs).1,
        List.map_cons, List.head?_cons]
      intro ha
      exact (h a List.mem_cons_self).2.2.1 (String.toList_injective (Option.some.inj ha))
  rw [components_eq, opening_join p (isAbsolute_intercalate h) hdot,
    strides_join p (isAbsolute_intercalate h), strides_intercalate h, List.map_append,
    ← List.append_assoc, ← components_eq, List.map_map]
  rfl

end Path

namespace Source

open ResourceCompiler.Path

variable {s : SourceSet} {l k : Location}

theorem precedes_map_name (l k : Location) :
    precedes Component.before (l.map .name) (k.map .name) = precedes namePrecedes l k :=
  precedes_map (fun _ _ h => Component.name.inj h) (fun _ _ => rfl) l k

/-- **What is below a root is in the order of the names that lead to it.** -/
theorem before_pathBelow_iff (hl : ∀ n ∈ l, IsName n) (hk : ∀ n ∈ k, IsName n) :
    (pathBelow s l).Before (pathBelow s k) ↔ precedes namePrecedes l k = true ∧ l ≠ k := by
  rw [Before, pathBelow, pathBelow, components_join_names s.root hl,
    components_join_names s.root hk, precedes_append,
    precedes_map_name, Ne, Ne, List.append_right_inj,
    List.map_inj_right fun _ _ h => Component.name.inj h]

end Source

/-- What is below a directory comes before a name that the name of the directory begins, though its
text does not. -/
example : Path.Before ⟨"res/a/strings.xml"⟩ ⟨"res/a-b/strings.xml"⟩ ∧
    "res/a-b/strings.xml" < "res/a/strings.xml" := by decide

end ResourceCompiler
