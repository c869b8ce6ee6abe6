import ResourceCompiler.Proofs.Native.AndroidTables
import ResourceCompiler.Proofs.Native.Grouping
import ResourceCompiler.Proofs.Native.Performing
import ResourceCompiler.Proofs.Native.Places
import ResourceCompiler.Proofs.Source.Gathering

/-!
# Strings of Android read back

The tables that are written for Android, taken as resource files, declare the strings that they were
written for.

* `valuesDirectory_injective`: locales have directories of their own.
* `tablePath`: where the table of a locale goes.
* `build_tables`: the strings that are built from tables.
-/

namespace ResourceCompiler.Native.Android

open OrderedMap ResourceCompiler.Path Source

/-! ### Directories -/

/-- The parts of the locale that a directory of tables is named for, by what stands in its name
behind the hyphens. -/
def partsOfDirectory : List (List Char) → List (List Char)
  | [_, part] =>
    match Text.fields '+' part with
    | _ :: second :: rest => second :: rest
    | single => single
  | [_, language, region] => [language, region.tail]
  | _ => []

/-- The long form of a name lists the parts. -/
theorem partsOfDirectory_long (first : List Char) (parts : List (List Char))
    (h : ∀ p ∈ first :: parts, '-' ∉ p ∧ '+' ∉ p) :
    partsOfDirectory (Text.fields '-'
      ("values".toList ++ '-' :: 'b' :: '+' :: Text.joined '+' (first :: parts))) =
        first :: parts := by
  have hjoined : Text.joined '+' (['b'] :: first :: parts) =
      'b' :: '+' :: Text.joined '+' (first :: parts) := rfl
  have hparts : ∀ p ∈ ['b'] :: first :: parts, '-' ∉ p ∧ '+' ∉ p :=
    List.forall_mem_cons.2 ⟨by decide, h⟩
  have hminus : '-' ∉ Text.joined '+' (['b'] :: first :: parts) := by
    intro hmem
    rcases Text.mem_joined hmem with hsep | ⟨p, hp, hmem⟩
    · cases hsep
    · exact (hparts p hp).1 hmem
  rw [← hjoined, Text.fields_append_sep (by decide), Text.fields_of_not_mem hminus,
    partsOfDirectory, Text.fields_joined (List.cons_ne_nil _ _) fun p hp => (hparts p hp).2]

theorem partsOfDirectory_valuesDirectory (l : Locale) :
    partsOfDirectory (Text.fields '-' (valuesDirectory l).toList) = l.parts.map String.toList := by
  have hclean : ∀ p ∈ l.parts.map String.toList, '-' ∉ p ∧ '+' ∉ p := by
    intro p hp
    obtain ⟨part, hpart, rfl⟩ := List.mem_map.1 hp
    exact ⟨fun hmem => absurd (Locale.isAlphanum_of_mem_parts hpart hmem) (by decide),
      fun hmem => absurd (Locale.isAlphanum_of_mem_parts hpart hmem) (by decide)⟩
  have hvalues : "values-".toList = "values".toList ++ ['-'] := by decide +kernel
  have hregion : "-r".toList = ['-', 'r'] := by decide +kernel
  have hlong : "values-b+".toList = "values".toList ++ ['-', 'b', '+'] := by decide +kernel
  have hplus : "+".toList = ['+'] := by decide +kernel
  have hclear : '-' ∉ "values".toList := by decide
  unfold valuesDirectory
  split
  · decide +kernel
  · rename_i language
    have hlanguage := hclean language.val.toList List.mem_cons_self
    rw [String.toList_append, hvalues, List.append_assoc, List.singleton_append,
      Text.fields_append_sep hclear, Text.fields_of_not_mem hlanguage.1, partsOfDirectory,
      Text.fields_of_not_mem hlanguage.2]
    rfl
  · rename_i language region
    have hlanguage := hclean language.val.toList List.mem_cons_self
    have hregion' := hclean region.val.toList (List.mem_cons_of_mem _ List.mem_cons_self)
    split
    · have hname : '-' ∉ 'r' :: region.val.toList := by
        rw [List.mem_cons, not_or]
        exact ⟨by decide, hregion'.1⟩
      rw [String.toList_append, String.toList_append, String.toList_append, hvalues, hregion]
      simp only [List.append_assoc, List.cons_append, List.nil_append]
      rw [Text.fields_append_sep hclear, Text.fields_append_sep hlanguage.1,
        Text.fields_of_not_mem hname]
      rfl
    · rw [String.toList_append, String.toList_append, String.toList_append, hlong, hplus]
      simp only [List.append_assoc, List.cons_append, List.nil_append]
      exact partsOfDirectory_long language.val.toList [region.val.toList] hclean
  · rename_i language script
    rw [String.toList_append, String.toList_append, String.toList_append, hlong, hplus]
    simp only [List.append_assoc, List.cons_append, List.nil_append]
    exact partsOfDirectory_long language.val.toList [script.val.toList] hclean
  · rename_i language script region
    rw [String.toList_append, String.toList_append, String.toList_append, String.toList_append,
      String.toList_append, hlong, hplus]
    simp only [List.append_assoc, List.cons_append, List.nil_append]
    exact partsOfDirectory_long language.val.toList [script.val.toList, region.val.toList] hclean

theorem valuesDirectory_injective : Function.Injective valuesDirectory := by
  intro l l' h
  have hparts := partsOfDirectory_valuesDirectory l
  rw [h, partsOfDirectory_valuesDirectory] at hparts
  exact (Locale.parts_injective
    (List.map_injective_iff.2 (fun _ _ => String.toList_injective) hparts)).symm

/-! ### Tables -/

/-- The path of the table of strings of a locale. -/
def tablePath (resources : Path) (l : Locale) : Path :=
  resources / valuesDirectory l / "strings.xml"

/-- The strings that entries have for a locale. -/
def items (entries : List (Entry .strings)) (l : Locale) : List (Key × String) :=
  forLocale (fun e => [e]) (stringValues entries) l

variable {package : PackageName} {resources : Path} {entries : List (Entry .strings)}

theorem mem_items {l : Locale} {key : Key} {text : String} : (key, text) ∈ items entries l ↔
    ∃ e ∈ entries, e.key = key ∧ OrderedMap.get? e.value l = some text := by
  rw [items, mem_forLocale, stringValues]
  constructor
  · rintro ⟨e, he, v, hv, heq⟩
    obtain ⟨x, hx, rfl⟩ := List.mem_map.1 he
    obtain ⟨rfl, rfl⟩ := Prod.mk.inj (List.mem_singleton.1 heq)
    exact ⟨x, hx, rfl, hv⟩
  · rintro ⟨e, he, rfl, hv⟩
    exact ⟨_, List.mem_map_of_mem he, text, hv, List.mem_singleton_self _⟩

theorem nodup_items (h : (entries.map Entry.key).Nodup) (l : Locale) :
    ((items entries l).map Prod.fst).Nodup :=
  nodup_map_forLocale_singleton (by rwa [stringValues, List.map_map]) (fun _ _ heq => heq) l

/-- There is one table for each locale that has something. -/
theorem exists_tables_eq {V : Type} (package : PackageName) (resources : Path) (file : String)
    (line : Key × V → String) (values : List (Key × OrderedMap Locale V)) :
    ∃ locales : List Locale, locales.Nodup ∧
      (∀ l, l ∈ locales ↔ forLocale (fun e => [e]) values l ≠ []) ∧
      tables package resources file line values = locales.map fun l =>
        .ok (.document (resources / valuesDirectory l / file)
          (table package (String.join ((forLocale (fun e => [e]) values l).map line)))) := by
  refine ⟨(group (located (fun e => [e]) values)).keys, nodup_keys _,
    fun _ => mem_keys_group_located, ?_⟩
  rw [tables, byLocale_eq_group]
  exact map_entries_group_located (fun l items => (Except.ok
    (.document (resources / valuesDirectory l / file) (table package (String.join (items.map line)))) :
      Except GenerateError Output)) (fun e => [e]) values

theorem location_tablePath (resources : Path) (l : Locale) : (tablePath resources l).location =
    resources.location ++ [valuesDirectory l, "strings.xml"] :=
  location_pair resources (isStem_valuesDirectory l).isName (IsStem.isName (by decide))

theorem location_tablePath_injective {l l' : Locale}
    (h : (tablePath resources l).location = (tablePath resources l').location) : l = l' := by
  rw [location_tablePath, location_tablePath] at h
  exact valuesDirectory_injective (List.cons.inj (List.append_cancel_left h)).1

/-- **Tables are found where they are written.** All entries have a value for the base locale, and
only locales that have strings have a table. -/
theorem read_tablePath {t s : FileTree} {written : List Path}
    (h : (plan package resources .strings entries).perform.run t = (.ok written, s)) :
    (∀ e ∈ stringValues entries, e.2.contains .base = true) ∧
      (∀ l, tablePath resources l ∈ written ↔ items entries l ≠ []) ∧
      ∀ l, items entries l ≠ [] → s.read (tablePath resources l) =
        .ok (table package (String.join ((items entries l).map stringLine))).toUTF8 := by
  obtain ⟨outputs, houtputs, -⟩ := Plan.perform_eq_ok h
  rw [plan] at houtputs
  obtain ⟨hbase, -⟩ := Plan.of_orFault_eq houtputs
  obtain ⟨locales, hnodup, hlocales, htables⟩ :=
    exists_tables_eq package resources "strings.xml" stringLine (stringValues entries)
  have hplan : plan package resources .strings entries = locales.map fun l =>
      .ok (.document (tablePath resources l)
        (table package (String.join ((items entries l).map stringLine)))) := by
    rw [plan, hbase]
    exact htables
  have hinjective : Function.Injective fun l => (tablePath resources l).location :=
    fun _ _ => location_tablePath_injective
  rw [hplan] at h
  obtain ⟨rfl, -, hread⟩ := Plan.perform_documents (List.Nodup.map hinjective hnodup) h
  refine ⟨requireBase_eq_none_iff.1 hbase, fun l => ?_, fun l hl => hread l ((hlocales l).2 hl)⟩
  have hpath : Function.Injective (tablePath resources) :=
    fun _ _ heq => hinjective (congrArg location heq)
  exact (List.mem_map_of_injective hpath).trans (hlocales l)

/-! ### Tables as resource files -/

/-- Where a resource tree has the strings of a locale. -/
def sourcePath (root : Path) (l : Locale) : Path := root / l.text / "strings.xml"

/-- What the tables of locales declare as resource files. -/
def declared (root : Path) (entries : List (Entry .strings)) (locales : List Locale) :
    List (Declaration Locale String) :=
  locales.flatMap fun l => (items entries l).map fun e => ⟨e.1, l, e.2, sourcePath root l⟩

theorem mem_declared {root : Path} {locales : List Locale} {key : Key} {l : Locale} {text : String}
    {path : Path} : ⟨key, l, text, path⟩ ∈ declared root entries locales ↔
      l ∈ locales ∧ (key, text) ∈ items entries l ∧ path = sourcePath root l := by
  rw [declared, List.mem_flatMap]
  constructor
  · rintro ⟨l', hl', hd⟩
    obtain ⟨e, he, heq⟩ := List.mem_map.1 hd
    obtain ⟨rfl, rfl, rfl, rfl⟩ := Declaration.mk.inj heq
    exact ⟨hl', he, rfl⟩
  · rintro ⟨hl, hitem, rfl⟩
    exact ⟨l, hl, List.mem_map.2 ⟨_, hitem, rfl⟩⟩

/-- Nothing is declared twice. -/
theorem nodup_declared (root : Path) {locales : List Locale} (h : (entries.map Entry.key).Nodup)
    (hlocales : locales.Nodup) :
    ((declared root entries locales).map fun d => (d.key, d.qualifier)).Nodup := by
  rw [declared, List.map_flatMap, List.nodup_flatMap]
  refine ⟨fun l _ => ?_, hlocales.imp fun {l l'} hne => ?_⟩
  · rw [List.map_map]
    have hpair : (items entries l).map
        ((fun d : Declaration Locale String => (d.key, d.qualifier)) ∘
          fun e => ⟨e.1, l, e.2, sourcePath root l⟩) =
        ((items entries l).map Prod.fst).map fun key => (key, l) := by
      rw [List.map_map]
      rfl
    rw [hpair]
    exact (nodup_items h l).map fun key key' heq => (Prod.mk.inj heq).1
  · intro pair hpair hpair'
    obtain ⟨d, hd, rfl⟩ := List.mem_map.1 hpair
    obtain ⟨d', hd', heq⟩ := List.mem_map.1 hpair'
    obtain ⟨e, -, rfl⟩ := List.mem_map.1 hd
    obtain ⟨e', -, rfl⟩ := List.mem_map.1 hd'
    exact hne (Prod.mk.inj heq).2.symm

/-- Resource files that hold the tables declare what these were written for. -/
theorem textDeclarations_eq {strict : Bool} (sourceSet : SourceSetName) {root : Path}
    {locales : List Locale} {u : FileTree}
    (hstrict : strict = true → ∀ e ∈ entries, ∀ l text,
      OrderedMap.get? e.value l = some text → '\r' ∉ text.toList)
    (hread : ∀ l ∈ locales, u.read (sourcePath root l) =
      .ok (table package (String.join ((items entries l).map stringLine))).toUTF8) :
    textDeclarations .strings (stringOf strict) sourceSet root (locales.map (sourcePath root)) u =
      (declared root entries locales).map .ok := by
  rw [textDeclarations, List.flatMap_map, declared, List.map_flatMap]
  refine List.flatMap_congr fun l hl => ?_
  have hname : IsName "strings.xml" := IsStem.isName (by decide)
  have hlocale := Place.locale_eq_ok sourceSet .strings root l.isStem.isName hname
  obtain ⟨document, hdocument, hroot, helements⟩ := read_table package (items entries l)
  have hresources := Place.resources_eq_ok (p := ⟨sourceSet, .strings, sourcePath root l⟩)
    (FileTree.readText_of_read (hread l hl)) hdocument hroot
  have hvalues : ∀ e ∈ items entries l, stringOf strict (stringElement e) = .ok e := by
    intro e he
    refine stringOf_stringElement fun hs => ?_
    obtain ⟨x, hx, -, hvalue⟩ := mem_items.1 he
    exact hstrict hs x hx l e.2 hvalue
  have hdeclarations := Place.declarations_eq_map hvalues
    ⟨sourceSet, .strings, sourcePath root l⟩ l
  rw [sourcePath] at hresources hdeclarations
  simp only [sourcePath, hlocale, hresources, helements, hdeclarations, List.map_map]
  rfl

/-- **Tables of strings read back.** Locales have directories of their own. Strings with distinct
keys that have been written for Android, which takes a value for the base locale, are built again
from the tables when each table that was written for a locale is taken as the resource file of that
locale: the same keys, and for each key the same texts for the same locales. With strict line breaks
this holds for texts without carriage returns. -/
theorem build_tables {t s u : FileTree} {written : List Path} {strict : Bool} {root : Path}
    {locales : List Locale} (sourceSet : SourceSetName) (hkeys : (entries.map Entry.key).Nodup)
    (hrun : (plan package resources .strings entries).perform.run t = (.ok written, s))
    (hstrict : strict = true → ∀ e ∈ entries, ∀ l text,
      OrderedMap.get? e.value l = some text → '\r' ∉ text.toList)
    (hnodup : locales.Nodup) (hlocales : ∀ l, l ∈ locales ↔ tablePath resources l ∈ written)
    (hplaced : ∀ l ∈ locales, u.read (sourcePath root l) = s.read (tablePath resources l)) :
    Function.Injective valuesDirectory ∧
      ∃ built, build strict sourceSet root (locales.map (sourcePath root)) u .strings = .ok built ∧
        (built.map Entry.key).Perm (entries.map Entry.key) ∧
        ∀ b ∈ built, ∀ e ∈ entries, b.key = e.key →
          ∀ l, OrderedMap.get? b.value l = OrderedMap.get? e.value l := by
  obtain ⟨hbase, hwritten, htables⟩ := read_tablePath hrun
  have hmem (l : Locale) : l ∈ locales ↔ items entries l ≠ [] := (hlocales l).trans (hwritten l)
  have hread : ∀ l ∈ locales, u.read (sourcePath root l) =
      .ok (table package (String.join ((items entries l).map stringLine))).toUTF8 :=
    fun l hl => (hplaced l hl).trans (htables l ((hmem l).1 hl))
  obtain ⟨built, hbuilt, hbuiltKeys, hkey, hvalue⟩ := build_strings_eq_ok
    (textDeclarations_eq sourceSet hstrict hread) (nodup_declared root hkeys hnodup)
  -- A locale that has strings has a table, so a string is declared exactly where an entry has it.
  have hdeclared (key : Key) (l : Locale) (text : String) :
      (∃ path, ⟨key, l, text, path⟩ ∈ declared root entries locales) ↔
        ∃ e ∈ entries, e.key = key ∧ OrderedMap.get? e.value l = some text := by
    rw [← mem_items]
    constructor
    · rintro ⟨path, hd⟩
      exact (mem_declared.1 hd).2.1
    · intro hitem
      exact ⟨_, mem_declared.2 ⟨(hmem l).2 (List.ne_nil_of_mem hitem), hitem, rfl⟩⟩
  refine ⟨valuesDirectory_injective, built, hbuilt, ?_, ?_⟩
  · rw [List.perm_ext_iff_of_nodup hbuiltKeys hkeys]
    intro key
    rw [hkey]
    constructor
    · rintro ⟨⟨key, l, text, path⟩, hd, rfl⟩
      obtain ⟨e, he, heq, -⟩ := (hdeclared key l text).1 ⟨path, hd⟩
      exact heq ▸ List.mem_map_of_mem he
    · intro hentry
      obtain ⟨e, he, rfl⟩ := List.mem_map.1 hentry
      have hcontains := hbase _ (List.mem_map_of_mem he)
      obtain ⟨text, htext⟩ := Option.isSome_iff_exists.1 hcontains
      obtain ⟨path, hd⟩ := (hdeclared e.key .base text).2 ⟨e, he, rfl, htext⟩
      exact ⟨_, hd, rfl⟩
  · intro b hb e he heq l
    refine Option.ext fun text => ?_
    rw [hvalue b hb, hdeclared]
    constructor
    · rintro ⟨e', he', hsame, htext⟩
      obtain rfl := List.inj_on_of_nodup_map hkeys he' he (hsame.trans heq)
      exact htext
    · exact fun htext => ⟨e, he, heq.symm, htext⟩

/-! ### A text with signs of all layers -/

namespace Quote

/-- A string whose text has marks, markup and a break, with a text for a region of digits. -/
def entry : Entry .strings :=
  ⟨⟨"quote", by decide⟩, OrderedMap.ofList [(.base, "@ \"<b>\" & it's\\\n?"),
    (.tag ⟨"es", by decide⟩ none (some ⟨"419", by decide⟩), " ")]⟩

/-- The package of the string. -/
def app : PackageName := ⟨"com.app", by decide⟩

/-- The locales of the string. -/
def locales : List Locale := (byLocale (stringValues [entry])).keys

/-- What writes the string. -/
def writing : FileAction GenerateError (List Path) :=
  (plan app ⟨"out"⟩ .strings [entry]).perform

/-- The tables of the locales as resource files. -/
def sources : List Output := locales.map fun l =>
  .document (sourcePath ⟨"res"⟩ l) (table app (String.join ((items [entry] l).map stringLine)))

/-- What places the tables as resource files. -/
def placing : FileAction GenerateError (List Path) := Plan.perform (sources.map .ok)

end Quote

theorem build_tables_quote :
    ∃ built, build true ⟨"main", by decide⟩ ⟨"res"⟩ (Quote.locales.map (sourcePath ⟨"res"⟩))
        (Quote.placing.run .empty).2 .strings = .ok built ∧
      (built.map Entry.key).Perm [Quote.entry.key] ∧
      ∀ b ∈ built, b.key = Quote.entry.key →
        ∀ l, OrderedMap.get? b.value l = OrderedMap.get? Quote.entry.value l := by
  have hwritten : (Quote.writing.run .empty).1 =
      .ok [⟨"out/values/strings.xml"⟩, ⟨"out/values-b+es+419/strings.xml"⟩] := by decide +kernel
  have hrun : Quote.writing.run .empty =
      (.ok [⟨"out/values/strings.xml"⟩, ⟨"out/values-b+es+419/strings.xml"⟩],
        (Quote.writing.run .empty).2) := by
    rw [← hwritten]
  have hplaces : (Quote.placing.run .empty).1 =
      .ok [⟨"res/base/strings.xml"⟩, ⟨"res/es-419/strings.xml"⟩] := by decide +kernel
  have hplacing : Quote.placing.run .empty =
      (.ok [⟨"res/base/strings.xml"⟩, ⟨"res/es-419/strings.xml"⟩],
        (Quote.placing.run .empty).2) := by
    rw [← hplaces]
  obtain ⟨-, hwrites, htables⟩ := @read_tablePath Quote.app ⟨"out"⟩ [Quote.entry] _ _ _ hrun
  have hmem (l : Locale) : l ∈ Quote.locales ↔ items [Quote.entry] l ≠ [] := by
    rw [Quote.locales, byLocale_eq_group]
    exact mem_keys_group_located
  have hreturn : true = true → ∀ e ∈ [Quote.entry], ∀ l text,
      OrderedMap.get? e.value l = some text → '\r' ∉ text.toList := by
    have hall : ∀ e ∈ [Quote.entry], ∀ v ∈ OrderedMap.entries e.value, '\r' ∉ v.2.toList := by
      decide +kernel
    exact fun _ e he l text htext => hall e he (l, text) (mem_entries_iff.2 htext)
  have hplaced : ∀ l ∈ Quote.locales, (Quote.placing.run .empty).2.read (sourcePath ⟨"res"⟩ l) =
      (Quote.writing.run .empty).2.read (tablePath ⟨"out"⟩ l) := by
    obtain ⟨outputs, houtputs, -, hsources⟩ := Plan.perform_eq_ok hplacing
    obtain rfl := List.map_injective_iff.2 (fun _ _ => Except.ok.inj) houtputs
    have hnodup : (Quote.sources.map fun o => o.path.location).Nodup := by decide +kernel
    intro l hl
    rw [htables l ((hmem l).1 hl)]
    exact hsources.read_of_nodup hnodup (List.mem_map_of_mem hl)
  obtain ⟨-, built, hbuilt, hkeys, hvalues⟩ := @build_tables Quote.app ⟨"out"⟩ [Quote.entry] .empty
    (Quote.writing.run .empty).2 (Quote.placing.run .empty).2 _ true ⟨"res"⟩ Quote.locales
      ⟨"main", by decide⟩ (by decide) hrun hreturn (nodup_keys _)
        (fun l => (hmem l).trans (hwrites l).symm) hplaced
  exact ⟨built, hbuilt, hkeys, fun b hb => hvalues b hb Quote.entry List.mem_cons_self⟩

end ResourceCompiler.Native.Android
