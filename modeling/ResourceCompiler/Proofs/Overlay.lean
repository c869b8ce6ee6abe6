import Mathlib.Data.List.Induction
import ResourceCompiler.Merge

/-!
# Values laid over each other

The merged value of a key comes from laying the declared values over each other one at a time.
This file says what becomes of a whole sequence of them. Laying over is associative, so that a
sequence can be cut anywhere and its parts can be merged first.

* `Kind.layered`: the value of a sequence of declared values, none for the empty one.
* `Kind.IsLayering`: what that value has to be. Qualifiers stand in the order of their first
  appearance and each holds what the last value that mentions it says; a color is the last one.
* `Kind.Upholds`: a value says all that another one says.
* `Kind.layered_append`, `Kind.isLayering_of_layered`.
-/

namespace ResourceCompiler

/-! ### First occurrences -/

section FirstOccurrences

variable {κ : Type} [DecidableEq κ]

theorem eraseDups_of_nodup {l : List κ} (h : l.Nodup) : l.eraseDups = l := by
  induction l with
  | nil => rfl
  | cons a l ih =>
    rw [List.nodup_cons] at h
    have hfilter : (l.filter fun b => !b == a) = l := by
      rw [List.filter_eq_self]
      intro b hb
      have hne : b ≠ a := fun e => h.1 (e ▸ hb)
      simpa using hne
    rw [List.eraseDups_cons, hfilter, ih h.2]

/-- Behind a list that has an item already, the item does not count. -/
theorem eraseDups_append_cons_of_mem {a : κ} {l : List κ} (r : List κ) (h : a ∈ l) :
    (l ++ a :: r).eraseDups = (l ++ r).eraseDups := by
  have hcons : (a :: r).removeAll l = r.removeAll l := by simp [List.cons_removeAll, h]
  rw [List.eraseDups_append, List.eraseDups_append, hcons]

/-- One more item at the end counts only if it is new. -/
theorem eraseDups_concat (l : List κ) (a : κ) :
    (l ++ [a]).eraseDups = if a ∈ l then l.eraseDups else l.eraseDups ++ [a] := by
  rw [List.eraseDups_append]
  by_cases h : a ∈ l
  · have hnil : [a].removeAll l = [] := by simp [List.cons_removeAll, h]
    rw [if_pos h, hnil, List.eraseDups_nil, List.append_nil]
  · have hself : [a].removeAll l = [a] := by simp [List.cons_removeAll, h]
    rw [if_neg h, hself]
    rfl

theorem nodup_eraseDups (l : List κ) : l.eraseDups.Nodup := by
  induction l using List.reverseRecOn with
  | nil => exact List.nodup_nil
  | append_singleton l a ih =>
    rw [eraseDups_concat]
    split
    · exact ih
    · rename_i h
      rw [List.nodup_append]
      refine ⟨ih, by simp, ?_⟩
      intro b hb c hc e
      rw [List.mem_singleton] at hc
      rw [e, hc, List.mem_eraseDups] at hb
      exact h hb

/-- Behind other items, a list can be replaced by its first occurrences. -/
theorem eraseDups_append_eraseDups (l m : List κ) :
    (l ++ m.eraseDups).eraseDups = (l ++ m).eraseDups := by
  induction m using List.reverseRecOn with
  | nil => rfl
  | append_singleton m a ih =>
    rw [eraseDups_concat, ← List.append_assoc, eraseDups_concat]
    by_cases h : a ∈ m
    · rw [if_pos h, if_pos (List.mem_append_right l h), ih]
    · rw [if_neg h, ← List.append_assoc, eraseDups_concat, ih]
      simp only [List.mem_append, List.mem_eraseDups]

/-- In front of other items, a list can be replaced by its first occurrences. -/
theorem eraseDups_eraseDups_append (l m : List κ) :
    (l.eraseDups ++ m).eraseDups = (l ++ m).eraseDups := by
  have hremove : m.removeAll l.eraseDups = m.removeAll l := by
    unfold List.removeAll
    apply List.filter_congr
    intro k _
    simp
  rw [List.eraseDups_append, List.eraseDups_append, eraseDups_of_nodup (nodup_eraseDups l), hremove]

end FirstOccurrences

/-! ### Ordered maps -/

namespace OrderedMap

variable {κ α : Type} [DecidableEq κ]

theorem keys_overlay_eq_eraseDups (m n : OrderedMap κ α) :
    (m.overlay n).keys = (m.keys ++ n.keys).eraseDups := by
  have hfilter : (n.keys.filter fun k => k ∉ m.keys) = n.keys.removeAll m.keys := by
    unfold List.removeAll
    apply List.filter_congr
    intro k _
    simp
  have hnodup : (n.keys.removeAll m.keys).Nodup := by
    rw [← hfilter]
    exact n.nodup_keys.filter _
  rw [keys_overlay, List.eraseDups_append, eraseDups_of_nodup m.nodup_keys, hfilter,
    eraseDups_of_nodup hnodup]

theorem overlay_assoc (l m n : OrderedMap κ α) :
    (l.overlay m).overlay n = l.overlay (m.overlay n) := by
  apply ext_of_get?
  · rw [keys_overlay_eq_eraseDups, keys_overlay_eq_eraseDups, keys_overlay_eq_eraseDups,
      keys_overlay_eq_eraseDups, eraseDups_append_eraseDups, eraseDups_eraseDups_append,
      List.append_assoc]
  · intro k _
    rw [get?_overlay, get?_overlay, get?_overlay, get?_overlay, Option.or_assoc]

theorem isEmpty_overlay (m n : OrderedMap κ α) :
    (m.overlay n).isEmpty = (m.isEmpty && n.isEmpty) := by
  rw [Bool.eq_iff_iff, Bool.and_eq_true, isEmpty_iff, isEmpty_iff, isEmpty_iff, keys_overlay,
    List.append_eq_nil_iff]
  constructor
  · rintro ⟨hm, hn⟩
    have hall : (n.keys.filter fun k => k ∉ ([] : List κ)) = n.keys :=
      List.filter_eq_self.2 (by simp)
    rw [hm, hall] at hn
    exact ⟨hm, hn⟩
  · rintro ⟨hm, hn⟩
    rw [hn]
    exact ⟨hm, rfl⟩

theorem get?_overlay_of_right (m : OrderedMap κ α) {n : OrderedMap κ α} {q : κ} {x : α}
    (h : n.get? q = some x) : (m.overlay n).get? q = some x := by
  rw [get?_overlay, h]
  rfl

/-- What laying maps over each other gives: each key in the place of its first appearance, with
the value of the last map that has it. -/
structure IsLayering (ms : List (OrderedMap κ α)) (m : OrderedMap κ α) : Prop where
  keys_eq : m.keys = (ms.flatMap keys).eraseDups
  get?_eq : ∀ k, m.get? k = ms.reverse.findSome? fun n => n.get? k

theorem isLayering_singleton (m : OrderedMap κ α) : IsLayering [m] m where
  keys_eq := by
    rw [List.flatMap_cons, List.flatMap_nil, List.append_nil, eraseDups_of_nodup m.nodup_keys]
  get?_eq k := by
    rw [List.reverse_singleton, List.findSome?_singleton]

theorem IsLayering.overlay {ms : List (OrderedMap κ α)} {m : OrderedMap κ α}
    (h : IsLayering ms m) (n : OrderedMap κ α) : IsLayering (ms ++ [n]) (m.overlay n) where
  keys_eq := by
    rw [keys_overlay_eq_eraseDups, h.keys_eq, List.flatMap_append, List.flatMap_cons,
      List.flatMap_nil, List.append_nil, eraseDups_eraseDups_append]
  get?_eq k := by
    rw [get?_overlay, h.get?_eq, List.reverse_append, List.reverse_singleton,
      List.singleton_append, List.findSome?_cons]
    cases n.get? k <;> rfl

end OrderedMap

/-! ### Values of a kind -/

namespace Kind

/-- What laying values of a kind over each other gives. -/
def IsLayering : (k : Kind) → List k.Value → k.Value → Prop
  | .strings, vs, v => OrderedMap.IsLayering vs v
  | .plurals, vs, v => OrderedMap.IsLayering vs v
  | .images, vs, v => OrderedMap.IsLayering vs v
  | .colors, vs, v => vs.getLast? = some v

instance (k : Kind) : Std.Associative k.overlay where
  assoc a b c := by
    cases k with
    | strings => exact OrderedMap.overlay_assoc a b c
    | plurals => exact OrderedMap.overlay_assoc a b c
    | images => exact OrderedMap.overlay_assoc a b c
    | colors => rfl

/-- Whether a value says all that another one says: the same for each of its qualifiers, or the
same color. -/
def Upholds : (k : Kind) → k.Value → k.Value → Prop
  | .strings, w, v => ∀ q x, OrderedMap.get? v q = some x → OrderedMap.get? w q = some x
  | .plurals, w, v => ∀ q x, OrderedMap.get? v q = some x → OrderedMap.get? w q = some x
  | .images, w, v => ∀ q x, OrderedMap.get? v q = some x → OrderedMap.get? w q = some x
  | .colors, w, v => w = v

theorem upholds_self (k : Kind) (v : k.Value) : k.Upholds v v := by
  cases k with
  | strings => exact fun _ _ h => h
  | plurals => exact fun _ _ h => h
  | images => exact fun _ _ h => h
  | colors => rfl

/-- The upper one of two values prevails. -/
theorem upholds_overlay (k : Kind) (u v : k.Value) : k.Upholds (k.overlay u v) v := by
  cases k with
  | strings => exact fun _ _ h => OrderedMap.get?_overlay_of_right u h
  | plurals => exact fun _ _ h => OrderedMap.get?_overlay_of_right u h
  | images => exact fun _ _ h => OrderedMap.get?_overlay_of_right u h
  | colors => rfl

theorem isLayering_singleton (k : Kind) (v : k.Value) : k.IsLayering [v] v := by
  cases k with
  | strings => exact OrderedMap.isLayering_singleton v
  | plurals => exact OrderedMap.isLayering_singleton v
  | images => exact OrderedMap.isLayering_singleton v
  | colors => rfl

theorem IsLayering.overlay {k : Kind} {vs : List k.Value} {v : k.Value} (h : k.IsLayering vs v)
    (w : k.Value) : k.IsLayering (vs ++ [w]) (k.overlay v w) := by
  cases k with
  | strings => exact OrderedMap.IsLayering.overlay h w
  | plurals => exact OrderedMap.IsLayering.overlay h w
  | images => exact OrderedMap.IsLayering.overlay h w
  | colors => exact List.getLast?_concat

/-- The value of a sequence of values laid over each other, the lowest first. -/
def layered (k : Kind) (vs : List k.Value) : Option k.Value :=
  vs.foldl (fun o v => o.merge k.overlay (some v)) none

theorem foldl_merge (k : Kind) (o : Option k.Value) (vs : List k.Value) :
    vs.foldl (fun o v => o.merge k.overlay (some v)) o = o.merge k.overlay (k.layered vs) := by
  induction vs using List.reverseRecOn with
  | nil => exact Option.merge_none_right.symm
  | append_singleton vs v ih =>
    rw [layered, List.foldl_append, List.foldl_append, ih, ← layered]
    have hassoc : Std.Associative (Option.merge k.overlay) := inferInstance
    exact hassoc.assoc o (k.layered vs) (some v)

theorem layered_append (k : Kind) (us vs : List k.Value) :
    k.layered (us ++ vs) = (k.layered us).merge k.overlay (k.layered vs) := by
  rw [layered, List.foldl_append, foldl_merge, ← layered]

theorem layered_nil (k : Kind) : k.layered [] = none := rfl

theorem layered_singleton (k : Kind) (v : k.Value) : k.layered [v] = some v := rfl

theorem layered_eq_none_iff {k : Kind} {vs : List k.Value} : k.layered vs = none ↔ vs = [] := by
  induction vs using List.reverseRecOn with
  | nil => simp [layered]
  | append_singleton vs v ih => simp [layered_append, layered_singleton]

theorem isLayering_of_layered {k : Kind} {vs : List k.Value} {v : k.Value}
    (h : k.layered vs = some v) : k.IsLayering vs v := by
  induction vs using List.reverseRecOn generalizing v with
  | nil => cases h
  | append_singleton vs w ih =>
    rw [layered_append, layered_singleton] at h
    cases hvs : k.layered vs with
    | none =>
      rw [hvs, Option.merge_none_left] at h
      rw [layered_eq_none_iff.1 hvs, ← Option.some.inj h]
      exact isLayering_singleton k w
    | some u =>
      rw [hvs, Option.merge_some_some] at h
      rw [← Option.some.inj h]
      exact (ih hvs).overlay w

/-- The upper part of a sequence prevails. -/
theorem upholds_of_layered_append {k : Kind} {us vs : List k.Value} {v w : k.Value}
    (hv : k.layered vs = some v) (hw : k.layered (us ++ vs) = some w) : k.Upholds w v := by
  rw [layered_append, hv] at hw
  cases hus : k.layered us with
  | none =>
    rw [hus, Option.merge_none_left] at hw
    rw [← Option.some.inj hw]
    exact upholds_self k v
  | some u =>
    rw [hus, Option.merge_some_some] at hw
    rw [← Option.some.inj hw]
    exact upholds_overlay k u v

end Kind

end ResourceCompiler
