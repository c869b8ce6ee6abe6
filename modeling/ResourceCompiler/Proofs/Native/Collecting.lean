import ResourceCompiler.Native.JsonMap
import ResourceCompiler.Proofs.Native.Grouping

/-!
# Values collected entry by entry

The maps for JavaScript are collected in one pass over the entries, and each entry is checked when
its turn comes. This comes to a check of all entries in front of arranging their values by locale.

* `requireBase_cons`: the check of all entries checks them one after the other.
* `Js.collect_eq`: the check comes first.
* `Js.entries_foldl_putValues`: maps built value by value are the values by locale, each a map.
* `Js.maps_eq_orFault`: what is written for a kind.
-/

namespace ResourceCompiler

/-! ### Maps with other values -/

namespace OrderedMap

variable {κ α β : Type} [DecidableEq κ] {m : OrderedMap κ β} {n : OrderedMap κ α} {f : α → β}

theorem get?_of_entries_eq_map (h : m.entries = n.entries.map fun e => (e.1, f e.2)) (key : κ) :
    m.get? key = (n.get? key).map f := by
  rw [get?, get?, h]
  induction n.entries with
  | nil => rfl
  | cons e es ih =>
    rw [List.map_cons, Entries.find?, Entries.find?]
    split
    · rfl
    · exact ih

theorem entries_insert_of_entries_eq_map (h : m.entries = n.entries.map fun e => (e.1, f e.2))
    (key : κ) (value : α) :
    (m.insert key (f value)).entries =
      (n.insert key value).entries.map fun e => (e.1, f e.2) := by
  have hput : ∀ es : List (κ × α), Entries.put key (f value) (es.map fun e => (e.1, f e.2)) =
      (Entries.put key value es).map fun e => (e.1, f e.2) := by
    intro es
    induction es with
    | nil => rfl
    | cons e es ih =>
      rw [List.map_cons, Entries.put, Entries.put]
      split
      · rfl
      · rw [ih, List.map_cons]
  exact (congrArg (Entries.put key (f value)) h).trans (hput n.entries)

end OrderedMap

namespace Native

open OrderedMap

variable {V : Type}

/-! ### The check -/

theorem requireBase_cons (platform : String) (kind : Kind) (e : Key × OrderedMap Locale V)
    (rest : List (Key × OrderedMap Locale V)) :
    requireBase platform kind (e :: rest) =
      (requireBase platform kind [e]).or (requireBase platform kind rest) := by
  simp only [requireBase, List.find?_cons, List.find?_nil]
  cases e.2.contains .base with
  | true => rfl
  | false => rfl

namespace Js

/-! ### Collecting with the check -/

/-- **The check comes first.** Collecting fails where the check of all entries fails, whatever has
been collected until then, and puts in the values of all entries otherwise. -/
theorem collect_eq (k : Kind) (maps : OrderedMap Locale (OrderedMap Key V))
    (entries : List (Key × OrderedMap Locale V)) :
    collect k maps entries = match requireBase Js.platform k entries with
      | some fault => .error fault
      | none => .ok (entries.foldl putValues maps) := by
  induction entries generalizing maps with
  | nil => rfl
  | cons e rest ih =>
    rw [collect, requireBase_cons Js.platform k e rest]
    cases requireBase Js.platform k [e] with
    | some fault => rfl
    | none => exact ih (putValues maps e)

/-- Puts a value of a key into the map of a locale. -/
def putValue (maps : OrderedMap Locale (OrderedMap Key V)) (p : Locale × (Key × V)) :
    OrderedMap Locale (OrderedMap Key V) :=
  maps.insert p.1 (((maps.get? p.1).getD .empty).insert p.2.1 p.2.2)

/-- Values put into maps one after the other are grouped by locale, and each group is a map. -/
theorem entries_foldl_putValue (pairs : List (Locale × (Key × V))) :
    (pairs.foldl putValue .empty).entries =
      (group pairs).entries.map fun e => (e.1, OrderedMap.ofList e.2) := by
  -- The pairs are taken in order, so the induction adds the last one.
  induction pairs using List.reverseRecOn with
  | nil => rfl
  | append_singleton pairs p ih =>
    have hget : ((pairs.foldl putValue .empty).get? p.1).getD .empty =
        OrderedMap.ofList (((group pairs).get? p.1).getD []) := by
      rw [get?_of_entries_eq_map ih]
      cases (group pairs).get? p.1 with
      | none => rfl
      | some items => rfl
    have hlast (items : List (Key × V)) :
        (OrderedMap.ofList items).insert p.2.1 p.2.2 = OrderedMap.ofList (items ++ [p.2]) :=
      (putAll_append .empty items [p.2]).symm
    rw [List.foldl_append, List.foldl_cons, List.foldl_nil, putValue, hget, hlast,
      group_append_singleton]
    exact entries_insert_of_entries_eq_map ih p.1 _

/-- Maps built from entries are the values by locale, each a map. -/
theorem entries_foldl_putValues (entries : List (Key × OrderedMap Locale V)) :
    (entries.foldl putValues .empty).entries =
      (byLocale entries).entries.map fun e => (e.1, OrderedMap.ofList e.2) := by
  rw [byLocale, ← entries_foldl_putValue, List.foldl_flatMap]
  simp only [List.foldl_map]
  rfl

/-- What is written for a kind is checked, and then arranged by locale. -/
theorem maps_eq_orFault (package : PackageName) (resources : Path) (k : Kind) (valueJson : V → Json)
    (entries : List (Key × OrderedMap Locale V)) :
    maps package resources k valueJson entries =
      Plan.orFault ((byLocale entries).entries.map fun (locale, items) =>
        .ok (.document (mapPath package resources k locale)
          (Json.document (object Key.text valueJson (OrderedMap.ofList items).entries))))
        (requireBase Js.platform k entries) := by
  rw [maps, collect_eq]
  cases requireBase Js.platform k entries with
  | some fault => rfl
  | none =>
    simp only [entries_foldl_putValues, List.map_map]
    rfl

end Js

end Native

end ResourceCompiler
