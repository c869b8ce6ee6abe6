import Mathlib.Data.List.Induction
import Mathlib.Data.List.Basic
import Mathlib.Data.List.Nodup
import ResourceCompiler.Native.Plan

/-!
# Values by locale

Values of entries are written by locale. What is gathered for a locale are the values that the
entries have for it, in the order of the entries, and nothing else.

* `OrderedMap.under`: what pairs have for a key.
* `OrderedMap.under_spread`: what a key has when values are put under several keys.
* `OrderedMap.get?_group`, `OrderedMap.mem_entries_group`: what is gathered under a key.
* `forLocale`: what entries have for a locale.
* `nodup_map_forLocale`: entries with distinct keys have distinct things for a locale.
* `located`, `map_entries_group_located`: what is made of the values for each locale.
* `requireBase_eq_none_iff`: entries that all have a value for the base locale.
-/

namespace ResourceCompiler

namespace OrderedMap

variable {κ α β : Type} [DecidableEq κ]

/-- The second components of the pairs with the given first one. -/
def under (key : κ) (pairs : List (κ × α)) : List α :=
  pairs.filterMap fun e => if e.1 = key then some e.2 else none

theorem under_append (key : κ) (pairs rest : List (κ × α)) :
    under key (pairs ++ rest) = under key pairs ++ under key rest :=
  List.filterMap_append

theorem under_flatMap (key : κ) (as : List β) (f : β → List (κ × α)) :
    under key (as.flatMap f) = as.flatMap fun a => under key (f a) := by
  induction as with
  | nil => rfl
  | cons a as ih => rw [List.flatMap_cons, under_append, ih, List.flatMap_cons]

theorem under_eq_nil {key : κ} {pairs : List (κ × α)} (h : key ∉ pairs.map Prod.fst) :
    under key pairs = [] := by
  rw [under, List.filterMap_eq_nil_iff]
  intro e he
  refine if_neg ?_
  rintro rfl
  exact h (List.mem_map_of_mem he)

theorem under_map_pair (key k : κ) (as : List α) :
    under key (as.map fun a => (k, a)) = if k = key then as else [] := by
  by_cases h : k = key
  · rw [under, List.filterMap_map, if_pos h]
    simp [h]
  · rw [under, List.filterMap_map, if_neg h]
    simp [h]

theorem under_ne_nil {key : κ} {pairs : List (κ × α)} (h : key ∈ pairs.map Prod.fst) :
    under key pairs ≠ [] := by
  obtain ⟨e, he, rfl⟩ := List.mem_map.1 h
  exact List.ne_nil_of_mem (List.mem_filterMap.2 ⟨e, he, if_pos rfl⟩)

/-- What several entries of a map have under a key belongs to the value of the key. -/
theorem under_entries (m : OrderedMap κ α) (key : κ) (f : α → List β) :
    under key (m.entries.flatMap fun e => (f e.2).map fun b => (e.1, b)) =
      ((m.get? key).map f).getD [] := by
  have h : ∀ es : List (κ × α), (es.map Prod.fst).Nodup →
      under key (es.flatMap fun e => (f e.2).map fun b => (e.1, b)) =
        ((Entries.find? key es).map f).getD [] := by
    intro es hes
    rw [under_flatMap]
    induction es with
    | nil => rfl
    | cons e es ih =>
      rw [List.map_cons, List.nodup_cons] at hes
      rw [List.flatMap_cons, under_map_pair, ih hes.2, Entries.find?]
      by_cases hkey : e.1 = key
      · have hnone : Entries.find? key es = none :=
          Entries.find?_eq_none_iff.2 (hkey ▸ hes.1)
        rw [if_pos hkey, if_pos hkey, hnone]
        exact List.append_nil _
      · rw [if_neg hkey, if_neg hkey, List.nil_append]
  exact h m.entries m.distinct

theorem under_map_key (key : κ) (keys : List κ) (a : α) :
    under key (keys.map fun k => (k, a)) = List.replicate (keys.count key) a := by
  induction keys with
  | nil => rfl
  | cons k keys ih =>
    have hcons : under key ((k :: keys).map fun k => (k, a)) =
        (if k = key then [a] else []) ++ under key (keys.map fun k => (k, a)) := by
      rw [List.map_cons, ← List.singleton_append, under_append]
      exact congrArg (· ++ _) (under_map_pair key k [a])
    rw [hcons, ih, List.count_cons]
    by_cases h : k = key
    · rw [if_pos h, if_pos (beq_iff_eq.2 h), List.replicate_succ]
      rfl
    · rw [if_neg h, if_neg (by rwa [beq_iff_eq])]
      rfl

/-- Where each value is put under several keys, a key that only one of them is put under, and only
once, has that value. -/
theorem under_spread (m : OrderedMap κ α) {spread : κ → List κ} {key source : κ}
    (h : ∀ k ∈ m.keys, (spread k).count key = if k = source then 1 else 0) (f : α → β) :
    under key (m.entries.flatMap fun e => (spread e.1).map fun k => (k, f e.2)) =
      ((m.get? source).map f).toList := by
  have hone : ∀ e ∈ m.entries, under key ((spread e.1).map fun k => (k, f e.2)) =
      under source ([f e.2].map fun b => (e.1, b)) := by
    intro e he
    rw [under_map_key, under_map_pair, h e.1 (List.mem_map_of_mem he)]
    split
    · rfl
    · rfl
  rw [under_flatMap, List.flatMap_congr hone, ← under_flatMap,
    under_entries m source fun v => [f v]]
  cases m.get? source with
  | none => rfl
  | some v => rfl

theorem group_append_singleton (pairs : List (κ × α)) (e : κ × α) :
    group (pairs ++ [e]) =
      (group pairs).insert e.1 (((group pairs).get? e.1).getD [] ++ [e.2]) := by
  rw [group, List.foldl_append]
  rfl

/-- What is gathered under a key. -/
theorem get?_group (pairs : List (κ × α)) (key : κ) :
    (group pairs).get? key = if key ∈ pairs.map Prod.fst then some (under key pairs) else none := by
  -- The pairs are taken in order, so the induction adds the last one.
  induction pairs using List.reverseRecOn with
  | nil => rfl
  | append_singleton pairs e ih =>
    rw [group_append_singleton, get?_insert, List.map_append, under_append]
    by_cases hkey : e.1 = key
    · subst hkey
      rw [if_pos rfl, if_pos (by simp), ih]
      have hlast : under e.1 [e] = [e.2] := by simp [under]
      by_cases hmem : e.1 ∈ pairs.map Prod.fst
      · rw [if_pos hmem, hlast, Option.getD_some]
      · rw [if_neg hmem, under_eq_nil hmem, hlast, Option.getD_none]
    · have hlast : under key [e] = [] := by simp [under, hkey]
      have hmem : key ∈ pairs.map Prod.fst ++ [e].map Prod.fst ↔ key ∈ pairs.map Prod.fst := by
        simp [Ne.symm hkey]
      rw [if_neg hkey, ih, hlast, List.append_nil]
      simp only [hmem]

theorem mem_keys_group {pairs : List (κ × α)} {key : κ} :
    key ∈ (group pairs).keys ↔ key ∈ pairs.map Prod.fst := by
  rw [← contains_iff, contains, get?_group]
  by_cases h : key ∈ pairs.map Prod.fst
  · rw [if_pos h]
    exact iff_of_true rfl h
  · rw [if_neg h]
    exact iff_of_false Bool.false_ne_true h

theorem mem_entries_group {pairs : List (κ × α)} {key : κ} {items : List α} :
    (key, items) ∈ (group pairs).entries ↔
      key ∈ pairs.map Prod.fst ∧ items = under key pairs := by
  rw [mem_entries_iff, get?_group]
  by_cases h : key ∈ pairs.map Prod.fst
  · rw [if_pos h, Option.some.injEq, eq_comm, and_iff_right h]
  · rw [if_neg h]
    exact iff_of_false (Option.some_ne_none _).symm fun hkey => h hkey.1

/-- What is made of each group is made of what the pairs have for its key. -/
theorem map_entries_group (f : κ → List α → β) (pairs : List (κ × α)) :
    ((group pairs).entries.map fun e => f e.1 e.2) =
      (group pairs).keys.map fun key => f key (under key pairs) := by
  rw [keys, List.map_map]
  exact List.map_congr_left fun e he => congrArg (f e.1) (mem_entries_group.1 he).2

theorem mem_keys_group_iff {pairs : List (κ × α)} {key : κ} :
    key ∈ (group pairs).keys ↔ under key pairs ≠ [] := by
  rw [mem_keys_group]
  exact ⟨under_ne_nil, fun h => by_contra fun hkey => h (under_eq_nil hkey)⟩

end OrderedMap

namespace Native

open OrderedMap

variable {V α : Type} {entries : List (Key × OrderedMap Locale V)}

/-- What entries have for a locale. -/
def forLocale (f : Key × V → List α) (entries : List (Key × OrderedMap Locale V)) (l : Locale) :
    List α :=
  entries.flatMap fun e => ((e.2.get? l).map fun v => f (e.1, v)).getD []

/-- What entries have, each with its locale. -/
def located (f : Key × V → List α) (entries : List (Key × OrderedMap Locale V)) :
    List (Locale × α) :=
  entries.flatMap fun e => e.2.entries.flatMap fun (locale, v) =>
    (f (e.1, v)).map fun a => (locale, a)

/-- What stands under a locale is what the entries have for it. -/
theorem under_located (f : Key × V → List α) (entries : List (Key × OrderedMap Locale V))
    (l : Locale) : under l (located f entries) = forLocale f entries l := by
  rw [located, under_flatMap]
  exact List.flatMap_congr fun e _ => under_entries e.2 l fun v => f (e.1, v)

/-- Something is gathered for the locales for which the entries have something. -/
theorem mem_keys_group_located {f : Key × V → List α} {l : Locale} :
    l ∈ (group (located f entries)).keys ↔ forLocale f entries l ≠ [] := by
  rw [mem_keys_group_iff, under_located]

/-- What is made of each locale is made of what the entries have for it. -/
theorem map_entries_group_located {β : Type} (g : Locale → List α → β) (f : Key × V → List α)
    (entries : List (Key × OrderedMap Locale V)) :
    ((group (located f entries)).entries.map fun e => g e.1 e.2) =
      (group (located f entries)).keys.map fun l => g l (forLocale f entries l) := by
  rw [map_entries_group]
  exact List.map_congr_left fun l _ => congrArg (g l) (under_located f entries l)

theorem mem_forLocale {f : Key × V → List α} {l : Locale} {a : α} :
    a ∈ forLocale f entries l ↔ ∃ e ∈ entries, ∃ v, e.2.get? l = some v ∧ a ∈ f (e.1, v) := by
  rw [forLocale, List.mem_flatMap]
  refine exists_congr fun e => and_congr_right fun _ => ?_
  cases e.2.get? l with
  | none => exact iff_of_false (by simp) fun ⟨v, hv, _⟩ => by cases hv
  | some v => simp

theorem map_forLocale {β : Type} (g : α → β) (f : Key × V → List α)
    (entries : List (Key × OrderedMap Locale V)) (l : Locale) :
    (forLocale f entries l).map g = forLocale (fun e => (f e).map g) entries l := by
  rw [forLocale, List.map_flatMap]
  refine List.flatMap_congr fun e _ => ?_
  cases e.2.get? l with
  | none => rfl
  | some v => rfl

/-- What entries with distinct keys have for a locale is distinct where it tells the keys. -/
theorem nodup_map_forLocale {β : Type} {f : Key × V → List α} {g : α → β}
    (hkeys : (entries.map Prod.fst).Nodup) (hone : ∀ e, ((f e).map g).Nodup)
    (hkey : ∀ e e', ∀ a ∈ f e, ∀ a' ∈ f e', g a = g a' → e.1 = e'.1) (l : Locale) :
    ((forLocale f entries l).map g).Nodup := by
  induction entries with
  | nil => exact List.nodup_nil
  | cons e entries ih =>
    rw [List.map_cons, List.nodup_cons] at hkeys
    have hcons : forLocale f (e :: entries) l =
        ((e.2.get? l).map fun v => f (e.1, v)).getD [] ++ forLocale f entries l := rfl
    rw [hcons, List.map_append]
    cases he : e.2.get? l with
    | none => exact ih hkeys.2
    | some v =>
      rw [Option.map_some, Option.getD_some, List.nodup_append]
      refine ⟨hone (e.1, v), ih hkeys.2, ?_⟩
      rintro b hb _ hb' rfl
      obtain ⟨a, ha, hab⟩ := List.mem_map.1 hb
      obtain ⟨a', ha', hab'⟩ := List.mem_map.1 hb'
      obtain ⟨e', he', v', -, hv'⟩ := mem_forLocale.1 ha'
      have hsame := hkey (e.1, v) (e'.1, v') a ha a' hv' (hab.trans hab'.symm)
      exact hkeys.1 (hsame ▸ List.mem_map_of_mem he')

/-- The same where each value gives one thing. -/
theorem nodup_map_forLocale_singleton {β : Type} {f : Key × V → α} {g : α → β}
    (hkeys : (entries.map Prod.fst).Nodup) (hkey : ∀ e e', g (f e) = g (f e') → e.1 = e'.1)
    (l : Locale) : ((forLocale (fun e => [f e]) entries l).map g).Nodup := by
  have hone (e : Key × V) : ([f e].map g).Nodup := List.nodup_singleton (g (f e))
  refine nodup_map_forLocale hkeys hone (fun e e' a ha a' ha' heq => ?_) l
  rw [List.mem_singleton.1 ha, List.mem_singleton.1 ha'] at heq
  exact hkey e e' heq

/-- Arranged by locale, entries are what they have for each locale. -/
theorem byLocale_eq_group (entries : List (Key × OrderedMap Locale V)) :
    byLocale entries = group (located (fun e => [e]) entries) := by
  rw [byLocale, located]
  congr 1
  exact List.flatMap_congr fun e _ => List.map_eq_flatMap

/-- The locales that entries are arranged by are those they have a value for. -/
theorem mem_keys_byLocale {l : Locale} :
    l ∈ (byLocale entries).keys ↔ ∃ e ∈ entries, l ∈ e.2.keys := by
  rw [byLocale, mem_keys_group, List.mem_map]
  constructor
  · rintro ⟨item, hitem, rfl⟩
    obtain ⟨e, he, hitem⟩ := List.mem_flatMap.1 hitem
    obtain ⟨v, hv, rfl⟩ := List.mem_map.1 hitem
    exact ⟨e, he, List.mem_map_of_mem hv⟩
  · rintro ⟨e, he, hl⟩
    obtain ⟨v, hv, rfl⟩ := List.mem_map.1 hl
    exact ⟨(v.1, (e.1, v.2)), List.mem_flatMap.2 ⟨e, he, List.mem_map_of_mem hv⟩, rfl⟩

theorem requireBase_eq_none_iff {platform : String} {kind : Kind} :
    requireBase platform kind entries = none ↔ ∀ e ∈ entries, e.2.contains .base = true := by
  rw [requireBase, Option.map_eq_none_iff, List.find?_eq_none]
  simp

end Native

end ResourceCompiler
