import ResourceCompiler.Native.AssetCatalog
import ResourceCompiler.Proofs.Native.AndroidReadBack
import ResourceCompiler.Proofs.Native.AppleTables
import ResourceCompiler.Proofs.Native.PropertyLists

/-!
# Plurals read back

Plurals are written for Android as tables and for Apple platforms as property lists, one document for
each locale. Read as XML, a table has exactly the plurals of its locale, and a property list is a
dictionary of exactly these plurals.

* `ReadsBack`: documents by locale, the files they are written to, and what they read as.
* `Apple.pluralValue`, `Apple.tableValue`: plurals as values of a property list.
* `Apple.read_pluralDocument`: a property list of plurals.
* `plural_documents_read`: the documents of both platforms.
-/

namespace ResourceCompiler.Native

open OrderedMap ResourceCompiler.Path Xml

/-! ### Documents by locale -/

/-- Whether a plan is to write one document for each locale that has items, at a place of its own,
where the document reads as these items and is found once the plan has been carried out. -/
structure ReadsBack {ι : Type} (plan : Plan) (path : Locale → Path) (items : Locale → List ι)
    (Reads : Element → List ι → Prop) (locales : List Locale) (text : Locale → String) : Prop where
  nodup : locales.Nodup
  mem_iff : ∀ l, l ∈ locales ↔ items l ≠ []
  plan_eq : plan = locales.map fun l => .ok (.document (path l) (text l))
  reads : ∀ l, ∃ root, Xml.read (text l) = .ok root ∧ Reads root (items l)
  written : ∀ t s files, plan.perform.run t = (.ok files, s) → files = locales.map path ∧
    (files.map location).Nodup ∧ ∀ l ∈ locales, s.readText (path l) = .ok (text l)

theorem readsBack_of_plan_eq {ι : Type} {plan : Plan} {path : Locale → Path}
    {items : Locale → List ι} {Reads : Element → List ι → Prop} {locales : List Locale}
    {text : Locale → String} (hpath : Function.Injective fun l => (path l).location)
    (hnodup : locales.Nodup) (hmem : ∀ l, l ∈ locales ↔ items l ≠ [])
    (hplan : plan = locales.map fun l => .ok (.document (path l) (text l)))
    (hreads : ∀ l, ∃ root, Xml.read (text l) = .ok root ∧ Reads root (items l)) :
    ReadsBack plan path items Reads locales text where
  nodup := hnodup
  mem_iff := hmem
  plan_eq := hplan
  reads := hreads
  written := by
    intro t s files hrun
    rw [hplan] at hrun
    obtain ⟨hfiles, hplaces, hread⟩ := Plan.perform_documents (List.Nodup.map hpath hnodup) hrun
    exact ⟨hfiles, hplaces, fun l hl => FileTree.readText_of_read (hread l hl)⟩

/-! ### Android -/

namespace Android

/-- The path of the table of plurals of a locale. -/
def pluralPath (resources : Path) (l : Locale) : Path :=
  resources / valuesDirectory l / "plurals.xml"

theorem location_pluralPath_injective (resources : Path) :
    Function.Injective fun l => (pluralPath resources l).location := by
  intro l l' h
  have hlocation (l : Locale) : (pluralPath resources l).location =
      resources.location ++ [valuesDirectory l, "plurals.xml"] :=
    location_pair resources (isStem_valuesDirectory l).isName (IsStem.isName (by decide))
  dsimp only at h
  rw [hlocation, hlocation] at h
  exact valuesDirectory_injective (List.cons.inj (List.append_cancel_left h)).1

/-- The plurals that entries have for a locale. -/
def pluralItems (entries : List (Entry .plurals)) (l : Locale) : List (Key × PluralForms) :=
  forLocale (fun e => [e]) (pluralValues entries) l

theorem exists_readsBack (package : PackageName) (resources : Path)
    {entries : List (Entry .plurals)}
    (hbase : ∀ e ∈ pluralValues entries, e.2.contains .base = true) :
    ∃ locales text, ReadsBack (plan package resources .plurals entries) (pluralPath resources)
      (pluralItems entries) IsPluralTable locales text := by
  obtain ⟨locales, hnodup, hlocales, htables⟩ :=
    exists_tables_eq package resources "plurals.xml" pluralLines (pluralValues entries)
  have hplan : plan package resources .plurals entries = locales.map fun l =>
      .ok (.document (pluralPath resources l)
        (table package (String.join ((pluralItems entries l).map pluralLines)))) := by
    rw [plan, requireBase_eq_none_iff.2 hbase]
    exact htables
  exact ⟨locales, _, readsBack_of_plan_eq (location_pluralPath_injective resources) hnodup hlocales
    hplan fun l => read_pluralTable package (pluralItems entries l)⟩

end Android

/-! ### Apple platforms -/

namespace Apple

/-- A plural as a value of a property list. -/
def pluralValue (forms : PluralForms) : PropertyList.Value :=
  .dictionary [("NSStringLocalizedFormatKey", .text "%#@value@"),
    ("value", .dictionary (("NSStringFormatSpecTypeKey", .text "NSStringPluralRuleType") ::
      ("NSStringFormatValueTypeKey", .text "d") ::
        forms.entries.map fun f => (f.1.text, .text f.2)))]

/-- Plurals as the value of a property list. -/
def tableValue (items : List (Key × PluralForms)) : PropertyList.Value :=
  .dictionary (items.map fun e => (e.1.text, pluralValue e.2))

/-- The lines of the forms of a plural. -/
def formLines (forms : PluralForms) : List Char :=
  (PropertyList.entry "            " "NSStringFormatSpecTypeKey" "NSStringPluralRuleType").toList ++
    ((PropertyList.entry "            " "NSStringFormatValueTypeKey" "d").toList ++
      forms.entries.flatMap fun f => (PropertyList.entry "            " f.1.text f.2).toList)

theorem toList_pluralLines (item : Key × PluralForms) : (pluralLines item).toList =
    PropertyList.dictLines 1 item.1.text
      ((PropertyList.entry "        " "NSStringLocalizedFormatKey" "%#@value@").toList ++
        PropertyList.dictLines 2 "value" (formLines item.2)) := by
  delta pluralLines
  simp [PropertyList.dictLines, formLines, tagged, indent, List.flatMap_map]

open PropertyList

/-- The lines of a plural hold its key with its value. -/
theorem pairLines_pluralLines (item : Key × PluralForms) :
    PairLines (pluralLines item).toList [(item.1.text, pluralValue item.2)] := by
  have htwo : ∀ x ∈ "        ".toList, x = ' ' := by simp
  have hthree : ∀ x ∈ "            ".toList, x = ' ' := by simp
  have hforms : PairLines (formLines item.2) (("NSStringFormatSpecTypeKey",
      .text "NSStringPluralRuleType") :: ("NSStringFormatValueTypeKey", .text "d") ::
        item.2.entries.map fun f => (f.1.text, .text f.2)) := by
    refine (pairLines_entry hthree (by simp) _).append
      ((pairLines_entry hthree (by simp) _).append (pairLines_flatMap fun f _ => ?_))
    exact pairLines_entry hthree (by cases f.1 <;> decide +kernel) f.2
  have hkey : '<' ∉ item.1.text.toList ∧ '&' ∉ item.1.text.toList :=
    ⟨fun hmem => absurd (item.1.isIdentifierChar_of_mem hmem) (by decide),
      fun hmem => absurd (item.1.isIdentifierChar_of_mem hmem) (by decide)⟩
  rw [toList_pluralLines]
  exact pairLines_dictLines hkey ((pairLines_entry htwo (by simp) _).append
    (pairLines_dictLines (by simp) hforms 2)) 1

/-- **A property list of plurals is read as the dictionary of these plurals.** -/
theorem read_pluralDocument (items : List (Key × PluralForms)) :
    ∃ root, Xml.read (document (String.join (items.map pluralLines))) = .ok root ∧
      read? root = some (tableValue items) := by
  have hlines : PairLines (String.join (items.map pluralLines)).toList
      (items.map fun e => (e.1.text, pluralValue e.2)) := by
    rw [String.toList_join, List.flatMap_map]
    exact pairLines_flatMap fun item _ => pairLines_pluralLines item
  exact read_document hlines

/-- The path of the property list of plurals of a locale. -/
def pluralPath (resources : Path) (l : Locale) : Path :=
  resources / directory l / "Localizable.stringsdict"

theorem location_pluralPath_injective (resources : Path) :
    Function.Injective fun l => (pluralPath resources l).location := by
  intro l l' h
  have hlocation (l : Locale) : (pluralPath resources l).location =
      resources.location ++ [directory l, "Localizable.stringsdict"] :=
    location_pair resources (isStem_directory l).isName (IsStem.isName (by decide))
  dsimp only at h
  rw [hlocation, hlocation] at h
  exact directory_injective (List.cons.inj (List.append_cancel_left h)).1

/-! ### The base as the region -/

section Base

variable {V : Type} (entries : List (Key × OrderedMap Locale V))

theorem itemsIn_base (l : Locale) : itemsIn .base entries l = forLocale (fun e => [e]) entries l := by
  have hvalue (values : OrderedMap Locale V) : valueIn .base l values = values.get? l := by
    rw [valueIn]
    split
    · rename_i hl
      rw [hl, Option.or_self]
    · exact Option.or_none
  rw [itemsIn, forLocale, List.filterMap_eq_flatMap_toList]
  refine List.flatMap_congr fun e _ => ?_
  rw [hvalue]
  cases e.2.get? l with
  | none => rfl
  | some v => rfl

/-- The base stands in for no other locale then. -/
theorem byTable_base : byTable .base entries = byLocale entries := by
  rw [byTable, byLocale]
  congr 1
  refine List.flatMap_congr fun e _ => ?_
  rw [List.map_eq_flatMap]
  refine List.flatMap_congr fun v hv => ?_
  have htables : tablesOf .base (e.2.contains .base) v.1 = [v.1] := by
    refine if_neg fun h => ?_
    have hcontains : e.2.contains .base = true :=
      contains_iff.2 (h.1 ▸ List.mem_map_of_mem (f := Prod.fst) hv)
    rw [hcontains] at h
    cases h.2
  dsimp only
  rw [htables]
  rfl

/-- There is one table for each locale that something stands in the table of, whatever the region
is. -/
theorem exists_tables_eq {β : Type} (region : Locale) (f : Locale → List (Key × V) → β) :
    ∃ locales : List Locale, locales.Nodup ∧ (∀ l, l ∈ locales ↔ itemsIn region entries l ≠ []) ∧
      ((byTable region entries).entries.map fun e => f e.1 e.2) =
        locales.map fun l => f l (itemsIn region entries l) := by
  by_cases hregion : region = .base
  · subst hregion
    refine ⟨(group (located (fun e => [e]) entries)).keys, nodup_keys _, fun l => ?_, ?_⟩
    · rw [itemsIn_base]
      exact mem_keys_group_located
    · simp only [itemsIn_base, byTable_base, byLocale_eq_group]
      exact map_entries_group_located f (fun e => [e]) entries
  · exact exists_byTable_eq hregion entries f

end Base

theorem exists_readsBack (region : Locale) (resources assets : Path)
    (entries : List (Entry .plurals)) :
    ∃ locales text, ReadsBack (plan region resources assets .plurals entries)
      (pluralPath resources) (itemsIn region (pluralValues entries))
      (fun root items => read? root = some (tableValue items)) locales text := by
  obtain ⟨locales, hnodup, hlocales, hplan⟩ := exists_tables_eq (pluralValues entries) region
    fun l items => (Except.ok (.document (pluralPath resources l)
      (document (String.join (items.map pluralLines)))) : Except GenerateError Output)
  exact ⟨locales, _, readsBack_of_plan_eq (location_pluralPath_injective resources) hnodup hlocales
    hplan fun l => read_pluralDocument (itemsIn region (pluralValues entries) l)⟩

end Apple

/-! ### Both platforms -/

/-- **Documents of plurals read back.** Plurals that all have a value for the base locale are written
for Android as one table for each locale, and any plurals are written for Apple platforms as one
property list for each locale that a value stands in the table of, each at a place of its own. A
table is read as a root with exactly the plurals of its locale, in order, each with exactly its forms
and their texts, up to the escapes of resource texts; a property list is read as a dictionary of
exactly the plurals of its locale, in order, each with exactly its forms and their texts. No text adds
an element or stands outside of its own. -/
theorem plural_documents_read (package : PackageName) (region : Locale) (resources assets : Path)
    (entries : List (Entry .plurals)) :
    ((∀ e ∈ pluralValues entries, e.2.contains .base = true) →
      ∃ locales text, ReadsBack (Android.plan package resources .plurals entries)
        (Android.pluralPath resources) (Android.pluralItems entries) Android.IsPluralTable
        locales text) ∧
    ∃ locales text, ReadsBack (Apple.plan region resources assets .plurals entries)
      (Apple.pluralPath resources) (Apple.itemsIn region (pluralValues entries))
      (fun root items => PropertyList.read? root = some (Apple.tableValue items)) locales text :=
  ⟨Android.exists_readsBack package resources, Apple.exists_readsBack region resources assets entries⟩

/-! ### A plural that looks like markup -/

namespace Lamps

def package : PackageName := ⟨"com.lamps", by decide⟩

def polish : Locale := .tag ⟨"pl", by decide⟩ none none

def czech : Locale := .tag ⟨"cs", by decide⟩ none none

/-- A plural with a form that has a mark of a reference in front of tags, and one with quotes and the
end of a section. -/
def item : Key × PluralForms := (⟨"lamps", by decide⟩, OrderedMap.ofList
  [(.one, "@ </item><lamp> & it's"), (.other, "\"%d\"\n]]>")])

def entries : List (Entry .plurals) :=
  [⟨item.1, OrderedMap.ofList
    [(.base, OrderedMap.ofList [(.other, "%d lamps")]), (polish, item.2)]⟩]

/-- What writes the tables. -/
def tables : FileAction GenerateError (List Path) :=
  (Android.plan package ⟨"out"⟩ .plurals entries).perform

/-- What writes the property lists, where the base stands in for the region. -/
def lists : FileAction GenerateError (List Path) :=
  (Apple.plan czech ⟨"out"⟩ ⟨"assets"⟩ .plurals entries).perform

end Lamps

theorem plural_documents_read_lamps :
    (∃ files s text root, Lamps.tables.run .empty = (.ok files, s) ∧
      s.readText (Android.pluralPath ⟨"out"⟩ Lamps.polish) = .ok text ∧
      Xml.read text = .ok root ∧
      Android.IsPluralTable root [Lamps.item]) ∧
    ∃ files s text root, Lamps.lists.run .empty = (.ok files, s) ∧
      s.readText (Apple.pluralPath ⟨"out"⟩ Lamps.polish) = .ok text ∧
      Xml.read text = .ok root ∧
      PropertyList.read? root = some (Apple.tableValue [Lamps.item]) := by
  have htables : (Lamps.tables.run .empty).1 =
      .ok [⟨"out/values/plurals.xml"⟩, ⟨"out/values-pl/plurals.xml"⟩] := by decide +kernel
  have hlists : (Lamps.lists.run .empty).1 =
      .ok [⟨"out/Base.lproj/Localizable.stringsdict"⟩, ⟨"out/cs.lproj/Localizable.stringsdict"⟩,
        ⟨"out/pl.lproj/Localizable.stringsdict"⟩] := by decide +kernel
  obtain ⟨handroid, locales', text', happle⟩ := plural_documents_read Lamps.package Lamps.czech
    ⟨"out"⟩ ⟨"assets"⟩ Lamps.entries
  obtain ⟨locales, text, handroid⟩ := handroid (by decide)
  have hitems : Android.pluralItems Lamps.entries Lamps.polish = [Lamps.item] := by decide +kernel
  have hitems' : Apple.itemsIn Lamps.czech (pluralValues Lamps.entries) Lamps.polish =
      [Lamps.item] := by decide +kernel
  constructor
  · have hrun := FileAction.run_eq_of_fst htables
    obtain ⟨-, -, hall⟩ := handroid.written .empty _ _ hrun
    obtain ⟨root, hread, hplurals⟩ := handroid.reads Lamps.polish
    have hmem := (handroid.mem_iff Lamps.polish).2 (hitems ▸ List.cons_ne_nil _ _)
    exact ⟨_, _, _, root, hrun, hall _ hmem, hread, hitems ▸ hplurals⟩
  · have hrun := FileAction.run_eq_of_fst hlists
    obtain ⟨-, -, hall⟩ := happle.written .empty _ _ hrun
    obtain ⟨root, hread, hvalue⟩ := happle.reads Lamps.polish
    have hmem := (happle.mem_iff Lamps.polish).2 (hitems' ▸ List.cons_ne_nil _ _)
    exact ⟨_, _, _, root, hrun, hall _ hmem, hread, hitems' ▸ hvalue⟩

end ResourceCompiler.Native
