import Mathlib.Data.List.Nodup
import ResourceCompiler.Proofs.Native.Grouping
import ResourceCompiler.Proofs.Native.Literals
import ResourceCompiler.Proofs.Native.Performing
import ResourceCompiler.Proofs.Native.Places

/-!
# Tables of strings for Apple platforms

A value for the base locale goes to two tables, its own and that of the region, where a value for
the region itself stands in its way. Whatever the order of the values, each table has one value for
a key, and reading the tables gives these values.

* `valueIn`, `itemsIn`: the values that stand in the table of a locale.
* `under_byTable`: what is gathered for a table.
* `directory_injective`: tables have directories of their own.
* `readTable_tablePath`: the tables of strings, read line by line.
-/

namespace ResourceCompiler.Native.Apple

open OrderedMap ResourceCompiler.Path

/-! ### The values of a table -/

section Values

variable {V : Type} {region l : Locale}

/-- The value that stands in the table of a locale: the one for the locale, or in the table of the
region that for the base, if there is none for the region. -/
def valueIn (region l : Locale) (values : OrderedMap Locale V) : Option V :=
  (values.get? l).or (if l = region then values.get? .base else none)

/-- What stands in the table of a locale, in the order of the entries. -/
def itemsIn (region : Locale) (entries : List (Key × OrderedMap Locale V)) (l : Locale) :
    List (Key × V) :=
  entries.filterMap fun e => (valueIn region l e.2).map fun v => (e.1, v)

/-- The locale whose value stands in a table. -/
def sourceOf (region l : Locale) (values : OrderedMap Locale V) : Locale :=
  if l = region ∧ values.contains region = false then .base else l

theorem valueIn_eq_get? (region l : Locale) (values : OrderedMap Locale V) :
    valueIn region l values = values.get? (sourceOf region l values) := by
  rw [valueIn, sourceOf]
  by_cases hl : l = region
  · subst hl
    rw [if_pos rfl, contains]
    cases hvalue : values.get? l with
    | none => rw [if_pos ⟨rfl, rfl⟩, Option.none_or]
    | some v => rw [if_neg fun h => Bool.noConfusion h.2, Option.some_or, hvalue]
  · rw [if_neg hl, if_neg fun h => hl h.1, Option.or_none]

/-- One value is put into a table, and only once. -/
theorem count_tablesOf (hregion : region ≠ .base) {values : OrderedMap Locale V} {k : Locale}
    (hk : k ∈ values.keys) (l : Locale) :
    (tablesOf region (values.contains region) k).count l =
      if k = sourceOf region l values then 1 else 0 := by
  have hsingle (k l : Locale) : [k].count l = if k = l then 1 else 0 := by
    rw [List.count_singleton]
    simp only [beq_iff_eq]
  cases hvalue : values.contains region with
  | true =>
    have htables : tablesOf region true k = [k] := if_neg fun h => Bool.noConfusion h.2
    have hsource : sourceOf region l values = l :=
      if_neg fun h => Bool.noConfusion (hvalue.symm.trans h.2)
    rw [htables, hsource, hsingle]
  | false =>
    have hstands : l = region → sourceOf region l values = .base := fun hl => if_pos ⟨hl, hvalue⟩
    have hown : l ≠ region → sourceOf region l values = l := fun hl => if_neg fun h => hl h.1
    by_cases hbase : k = .base
    · -- the value for the base is put into two tables
      have htables : tablesOf region false k = [.base, region] := if_pos ⟨hbase, rfl⟩
      rw [htables, List.count_cons, hsingle, hbase]
      by_cases hl : l = region
      · rw [hstands hl, hl, if_pos rfl, if_pos rfl, if_neg (by simpa using hregion.symm)]
      · rw [hown hl, if_neg (Ne.symm hl)]
        simp only [beq_iff_eq, Nat.zero_add]
    · have htables : tablesOf region false k = [k] := if_neg fun h => hbase h.1
      rw [htables, hsingle]
      by_cases hl : l = region
      · have hother : k ≠ l := by
          rintro rfl
          rw [← hl, contains_iff.2 hk] at hvalue
          cases hvalue
        rw [hstands hl, if_neg hbase, if_neg hother]
      · rw [hown hl]

/-- What the values of entries put into tables. -/
def spread (region : Locale) (entries : List (Key × OrderedMap Locale V)) :
    List (Locale × (Key × V)) :=
  entries.flatMap fun e => e.2.entries.flatMap fun v =>
    (tablesOf region (e.2.contains region) v.1).map fun table => (table, (e.1, v.2))

/-- **What is gathered for a table** is what stands in it. -/
theorem under_spread_eq (hregion : region ≠ .base) (entries : List (Key × OrderedMap Locale V))
    (l : Locale) : under l (spread region entries) = itemsIn region entries l := by
  rw [spread, under_flatMap, itemsIn, List.filterMap_eq_flatMap_toList]
  refine List.flatMap_congr fun e _ => ?_
  rw [valueIn_eq_get?]
  exact under_spread e.2 (fun k hk => count_tablesOf hregion hk l) fun v => (e.1, v)

/-- There is one table for each locale that something stands in the table of. -/
theorem exists_byTable_eq {β : Type} (hregion : region ≠ .base)
    (entries : List (Key × OrderedMap Locale V)) (f : Locale → List (Key × V) → β) :
    ∃ locales : List Locale, locales.Nodup ∧ (∀ l, l ∈ locales ↔ itemsIn region entries l ≠ []) ∧
      ((byTable region entries).entries.map fun e => f e.1 e.2) =
        locales.map fun l => f l (itemsIn region entries l) := by
  refine ⟨(group (spread region entries)).keys, nodup_keys _, fun l => ?_, ?_⟩
  · rw [mem_keys_group_iff, under_spread_eq hregion]
  · have hgroup : byTable region entries = group (spread region entries) := rfl
    rw [hgroup, map_entries_group]
    exact List.map_congr_left fun l _ => congrArg (f l) (under_spread_eq hregion entries l)

/-- A key stands in a table once. -/
theorem nodup_itemsIn {entries : List (Key × OrderedMap Locale V)}
    (h : (entries.map Prod.fst).Nodup) (region l : Locale) :
    ((itemsIn region entries l).map Prod.fst).Nodup := by
  refine h.sublist ?_
  induction entries with
  | nil => exact List.Sublist.refl _
  | cons e entries ih =>
    rw [List.map_cons, List.nodup_cons] at h
    rw [itemsIn, List.filterMap_cons]
    split
    · exact (ih h.2).cons _
    · rename_i item hitem
      obtain ⟨v, -, rfl⟩ := Option.map_eq_some_iff.1 hitem
      exact (ih h.2).cons_cons _

end Values

/-! ### Places of tables -/

theorem directory_injective : Function.Injective directory := by
  have htag (l : Locale) (hl : l ≠ .base) : directory l = l.text ++ ".lproj" := by
    cases l with
    | base => exact absurd rfl hl
    | tag => rfl
  have hbase (l : Locale) (hl : l ≠ .base) : directory .base ≠ directory l := by
    intro h
    have htext : l.text = "Base" := by
      rw [htag l hl] at h
      have hlist := congrArg String.toList h
      rw [String.toList_append] at hlist
      exact String.toList_injective (List.append_cancel_right (hlist.symm.trans (by decide)))
    have hread := Locale.ofText?_text l
    rw [htext] at hread
    have hnone : (Locale.ofText? "Base").isOk = false := by decide
    rw [hread] at hnone
    cases hnone
  intro l l' h
  by_cases hl : l = .base
  · by_cases hl' : l' = .base
    · rw [hl, hl']
    · exact absurd (hl ▸ h) (hbase l' hl')
  · by_cases hl' : l' = .base
    · exact absurd (hl' ▸ h).symm (hbase l hl)
    · rw [htag l hl, htag l' hl'] at h
      have hlist := congrArg String.toList h
      rw [String.toList_append, String.toList_append] at hlist
      exact Locale.text_injective (String.toList_injective (List.append_cancel_right hlist))

/-- The path of the table of strings of a locale. -/
def tablePath (resources : Path) (l : Locale) : Path :=
  resources / directory l / "Localizable.strings"

theorem location_tablePath (resources : Path) (l : Locale) : (tablePath resources l).location =
    resources.location ++ [directory l, "Localizable.strings"] :=
  location_pair resources (isStem_directory l).isName (IsStem.isName (by decide))

theorem location_tablePath_injective (resources : Path) :
    Function.Injective fun l => (tablePath resources l).location := by
  intro l l' h
  dsimp only at h
  rw [location_tablePath, location_tablePath] at h
  exact directory_injective (List.cons.inj (List.append_cancel_left h)).1

theorem tablePath_injective (resources : Path) : Function.Injective (tablePath resources) :=
  fun _ _ h => location_tablePath_injective resources (congrArg location h)

/-! ### Tables read line by line -/

/-- **Tables of strings hold the right value for every locale.** Strings with distinct keys are
written for Apple platforms without fault. The files are pairwise distinct, and they are tables: one
for each locale that a value stands in the table of. Read line by line, a table gives the keys and
texts of these values, each key once, in order, and nothing else. -/
theorem readTable_tablePath {region : Locale} {resources assets : Path}
    {entries : List (Entry .strings)} (hregion : region ≠ .base)
    (hkeys : (entries.map Entry.key).Nodup) :
    (∀ step ∈ plan region resources assets .strings entries, ∃ o, step = .ok o) ∧
      ∀ t s written, (plan region resources assets .strings entries).perform.run t =
          (.ok written, s) →
        (written.map location).Nodup ∧ (∀ p ∈ written, ∃ l, p = tablePath resources l) ∧
          ∀ l, (tablePath resources l ∈ written ↔
              itemsIn region (stringValues entries) l ≠ []) ∧
            ((itemsIn region (stringValues entries) l).map Prod.fst).Nodup ∧
            (tablePath resources l ∈ written → ∃ text,
              s.readText (tablePath resources l) = .ok text ∧
                readTable text = some ((itemsIn region (stringValues entries) l).map
                  fun e => (e.1.text, e.2))) := by
  obtain ⟨locales, hnodup, hlocales, hplan⟩ := exists_byTable_eq hregion (stringValues entries)
    fun l items => (Except.ok (.document (tablePath resources l)
      (String.join (items.map stringLine))) : Except GenerateError Output)
  have heq : plan region resources assets .strings entries = locales.map fun l =>
      .ok (.document (tablePath resources l)
        (String.join ((itemsIn region (stringValues entries) l).map stringLine))) := hplan
  refine ⟨fun step hstep => ?_, fun t s written hrun => ?_⟩
  · rw [heq] at hstep
    obtain ⟨l, -, rfl⟩ := List.mem_map.1 hstep
    exact ⟨_, rfl⟩
  · rw [heq] at hrun
    obtain ⟨rfl, hplaces, hread⟩ := Plan.perform_documents
      (List.Nodup.map (location_tablePath_injective resources) hnodup) hrun
    have hwritten (l : Locale) : tablePath resources l ∈ locales.map (tablePath resources) ↔
        l ∈ locales := List.mem_map_of_injective (tablePath_injective resources)
    refine ⟨hplaces, fun p hp => ?_, fun l => ⟨(hwritten l).trans (hlocales l), ?_, fun hl => ?_⟩⟩
    · obtain ⟨l, -, rfl⟩ := List.mem_map.1 hp
      exact ⟨l, rfl⟩
    · exact nodup_itemsIn (by rwa [stringValues, List.map_map]) region l
    · exact ⟨_, FileTree.readText_of_read (hread l ((hwritten l).1 hl)), readTable_join _⟩

/-! ### A region with and without values -/

namespace Farewell

/-- The region. -/
def dutch : Locale := .tag ⟨"nl", by decide⟩ none none

/-- A string with a value for the region in front of that for the base, and one with a value for the
base alone. -/
def entries : List (Entry .strings) :=
  [⟨⟨"farewell", by decide⟩, OrderedMap.ofList [(dutch, "\"Bye\"\\\n"), (.base, "Farewell")]⟩,
    ⟨⟨"parting", by decide⟩, OrderedMap.ofList [(.base, "\";\t")]⟩]

/-- What writes both. -/
def writing : FileAction GenerateError (List Path) :=
  (plan dutch ⟨"out"⟩ ⟨"assets"⟩ .strings entries).perform

end Farewell

theorem readTable_tablePath_farewell : ∃ written s text,
    Farewell.writing.run .empty = (.ok written, s) ∧
      s.readText (tablePath ⟨"out"⟩ Farewell.dutch) = .ok text ∧
      readTable text = some [("farewell", "\"Bye\"\\\n"), ("parting", "\";\t")] := by
  have hwritten : (Farewell.writing.run .empty).1 =
      .ok [⟨"out/nl.lproj/Localizable.strings"⟩, ⟨"out/Base.lproj/Localizable.strings"⟩] := by
    decide +kernel
  have hrun := FileAction.run_eq_of_fst hwritten
  obtain ⟨-, htables⟩ := @readTable_tablePath Farewell.dutch ⟨"out"⟩ ⟨"assets"⟩ Farewell.entries
    (by decide) (by decide)
  obtain ⟨-, -, hall⟩ := htables .empty _ _ hrun
  obtain ⟨hmem, -, hread⟩ := hall Farewell.dutch
  obtain ⟨text, htext, htable⟩ := hread (hmem.2 (by decide +kernel))
  exact ⟨_, _, text, hrun, htext, htable.trans (by decide +kernel)⟩

end ResourceCompiler.Native.Apple
