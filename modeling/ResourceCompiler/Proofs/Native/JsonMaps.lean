import Mathlib.Data.List.Nodup
import Mathlib.Data.Prod.Basic
import ResourceCompiler.Proofs.Json.ReadBack
import ResourceCompiler.Proofs.Native.Collecting
import ResourceCompiler.Proofs.Native.Performing
import ResourceCompiler.Proofs.Native.Places

/-!
# Maps read back

The maps for JavaScript are files at places of their own, and read as JSON each is an object of the
texts that the entries have for its locale.

* `Js.mapFile_injective`: maps of different packages, kinds or locales have different names.
* `Js.members`: what the object of a map has to be.
* `Js.mapPlan_eq`: what is written for strings and plurals.
* `Js.read_mapPath`: maps read back.
-/

namespace ResourceCompiler.Native.Js

open OrderedMap ResourceCompiler.Path

/-! ### Names of maps -/

/-- What is behind the last separator is told apart from what is in front of it. -/
theorem eq_of_append_sep_eq {c : Char} {a a' b b' : List Char} (hb : c ∉ b) (hb' : c ∉ b')
    (h : a ++ c :: b = a' ++ c :: b') : a = a' ∧ b = b' := by
  have hbehind {m b b' : List Char} (hb : c ∉ b) (h : c :: b = m ++ c :: b') : m = [] := by
    cases m with
    | nil => rfl
    | cons d m => exact absurd (by simp [(List.cons.inj h).2]) hb
  rcases List.append_eq_append_iff.1 h with ⟨m, rfl, hm⟩ | ⟨m, rfl, hm⟩
  · obtain rfl := hbehind hb hm
    exact ⟨(List.append_nil a).symm, (List.cons.inj hm).2⟩
  · obtain rfl := hbehind hb' hm
    exact ⟨List.append_nil a', (List.cons.inj hm).2.symm⟩

theorem sep_not_mem_kind (k : Kind) : '_' ∉ k.text.toList := by cases k <;> decide

theorem sep_not_mem_locale (l : Locale) : '_' ∉ l.text.toList := by
  intro hmem
  rcases Locale.of_mem_text hmem with h | h
  · cases h
  · cases h

/-- No kind is named like a locale. -/
theorem text_kind_ne_text_locale (k : Kind) (l : Locale) : k.text ≠ l.text := by
  intro h
  have hread := Locale.ofText?_text l
  rw [← h] at hread
  have hnone : (Locale.ofText? k.text).isOk = false := by cases k <;> decide
  rw [hread] at hnone
  cases hnone

/-- What the names of the maps of a kind start with. -/
def mapStem (package : PackageName) (k : Kind) : List Char :=
  package.text.toList ++ '_' :: k.text.toList

theorem mapStem_injective {package package' : PackageName} {k k' : Kind}
    (h : mapStem package k = mapStem package' k') : package = package' ∧ k = k' := by
  obtain ⟨hpackage, hk⟩ := eq_of_append_sep_eq (sep_not_mem_kind k) (sep_not_mem_kind k') h
  refine ⟨?_, Kind.text_injective (String.toList_injective hk)⟩
  cases package
  cases package'
  cases String.toList_injective hpackage
  rfl

/-- A name that ends in a kind does not end in a locale. -/
theorem mapStem_ne (package : PackageName) (k : Kind) (front : List Char) (l : Locale) :
    mapStem package k ≠ front ++ '_' :: l.text.toList := by
  intro h
  have hlast := (eq_of_append_sep_eq (sep_not_mem_kind k) (sep_not_mem_locale l) h).2
  exact text_kind_ne_text_locale k l (String.toList_injective hlast)

theorem toList_localeSuffix {l : Locale} (hl : l ≠ .base) :
    (localeSuffix l).toList = '_' :: l.text.toList := by
  cases l with
  | base => exact absurd rfl hl
  | tag => exact String.toList_append

/-- **Maps of different packages, kinds or locales have different names.** -/
theorem mapFile_injective {package package' : PackageName} {k k' : Kind} {l l' : Locale}
    (h : mapFile package k l = mapFile package' k' l') :
    package = package' ∧ k = k' ∧ l = l' := by
  have hlist : mapStem package k ++ (localeSuffix l).toList =
      mapStem package' k' ++ (localeSuffix l').toList := by
    have hlist := congrArg String.toList h
    simp only [mapFile, String.toList_append] at hlist
    have hnames := List.append_cancel_right hlist
    simpa [mapStem] using hnames
  have hbase (stem : List Char) : stem ++ (localeSuffix .base).toList = stem :=
    List.append_nil stem
  -- the last field of a name is the kind for the base locale, and the locale otherwise
  by_cases hl : l = .base
  · subst hl
    rw [hbase] at hlist
    by_cases hl' : l' = .base
    · subst hl'
      rw [hbase] at hlist
      obtain ⟨hpackage, hk⟩ := mapStem_injective hlist
      exact ⟨hpackage, hk, rfl⟩
    · rw [toList_localeSuffix hl'] at hlist
      exact absurd hlist (mapStem_ne _ _ _ _)
  · rw [toList_localeSuffix hl] at hlist
    by_cases hl' : l' = .base
    · subst hl'
      rw [hbase] at hlist
      exact absurd hlist.symm (mapStem_ne _ _ _ _)
    · rw [toList_localeSuffix hl'] at hlist
      obtain ⟨hstem, htext⟩ :=
        eq_of_append_sep_eq (sep_not_mem_locale l) (sep_not_mem_locale l') hlist
      obtain ⟨hpackage, hk⟩ := mapStem_injective hstem
      exact ⟨hpackage, hk, Locale.text_injective (String.toList_injective htext)⟩

theorem location_mapPath (package : PackageName) (resources : Path) (k : Kind) (l : Locale) :
    (mapPath package resources k l).location =
      resources.location ++ ["localization", mapFile package k l] :=
  location_pair resources (IsStem.isName (by decide)) (isStem_mapFile package k l).isName

theorem location_mapPath_injective (package : PackageName) (resources : Path) :
    Function.Injective fun i : Kind × Locale =>
      (mapPath package resources i.1 i.2).location := by
  rintro ⟨k, l⟩ ⟨k', l'⟩ h
  dsimp only at h
  rw [location_mapPath, location_mapPath] at h
  have hname := (List.cons.inj (List.cons.inj (List.append_cancel_left h)).2).1
  obtain ⟨-, rfl, rfl⟩ := mapFile_injective hname
  rfl

/-! ### What maps are written from -/

/-- The member for a string: the key with its text. -/
def stringMember (e : Key × String) : String × Json := (e.1.text, .text e.2)

/-- The member for a plural: the key with the texts by category. -/
def pluralMember (e : Key × PluralForms) : String × Json :=
  (e.1.text, .record (e.2.entries.map fun (q, text) => (q.text, .text text)))

/-- The members of the map of a kind for a locale: those for the resources that declare the locale,
in their order. -/
def members (strings : List (Entry .strings)) (plurals : List (Entry .plurals)) :
    Kind → Locale → List (String × Json)
  | .strings, l => forLocale (fun e => [stringMember e]) (stringValues strings) l
  | .plurals, l => forLocale (fun e => [pluralMember e]) (pluralValues plurals) l
  | .images, _ => []
  | .colors, _ => []

/-- Whether a resource of a kind declares a locale. -/
def Declared (strings : List (Entry .strings)) (plurals : List (Entry .plurals)) :
    Kind → Locale → Prop
  | .strings, l => ∃ e ∈ strings, l ∈ OrderedMap.keys e.value
  | .plurals, l => ∃ e ∈ plurals, l ∈ OrderedMap.keys e.value
  | .images, _ => False
  | .colors, _ => False

/-- The map of a kind for a locale. -/
def mapText (strings : List (Entry .strings)) (plurals : List (Entry .plurals)) (k : Kind)
    (l : Locale) : String :=
  Json.document (.record (members strings plurals k l))

/-- What is written for strings and plurals. -/
def mapPlan (package : PackageName) (resources : Path) (strings : List (Entry .strings))
    (plurals : List (Entry .plurals)) : Plan :=
  plan package resources .strings strings ++ plan package resources .plurals plurals

section Members

variable {V : Type} {entries : List (Key × OrderedMap Locale V)}

/-- Each map has the members for its locale. -/
theorem maps_eq (package : PackageName) (resources : Path) (k : Kind) (valueJson : V → Json)
    (hkeys : (entries.map Prod.fst).Nodup)
    (hbase : ∀ e ∈ entries, e.2.contains .base = true) :
    maps package resources k valueJson entries = (byLocale entries).keys.map fun l =>
      .ok (.document (mapPath package resources k l) (Json.document
        (.record (forLocale (fun e => [(e.1.text, valueJson e.2)]) entries l)))) := by
  have hitems (l : Locale) : object Key.text valueJson
      (OrderedMap.ofList (forLocale (fun e => [e]) entries l)).entries =
        .record (forLocale (fun e => [(e.1.text, valueJson e.2)]) entries l) := by
    have hnodup : ((forLocale (fun e => [e]) entries l).map Prod.fst).Nodup :=
      nodup_map_forLocale_singleton hkeys (fun _ _ heq => heq) l
    rw [entries_ofList hnodup, object, map_forLocale]
    rfl
  rw [maps_eq_orFault, requireBase_eq_none_iff.2 hbase, byLocale_eq_group]
  refine (map_entries_group_located (fun l items => (Except.ok (.document
    (mapPath package resources k l) (Json.document (object Key.text valueJson
      (OrderedMap.ofList items).entries))) : Except GenerateError Output))
        (fun e => [e]) entries).trans ?_
  exact List.map_congr_left fun l _ => by rw [hitems]

end Members

section Plans

variable {strings : List (Entry .strings)} {plurals : List (Entry .plurals)}

/-- There is one map for each kind and locale that is declared. -/
theorem exists_mapPlan_eq (package : PackageName) (resources : Path)
    (hstrings : (strings.map Entry.key).Nodup) (hplurals : (plurals.map Entry.key).Nodup)
    (hstringsBase : ∀ e ∈ strings, OrderedMap.contains e.value .base = true)
    (hpluralsBase : ∀ e ∈ plurals, OrderedMap.contains e.value .base = true) :
    ∃ is : List (Kind × Locale), is.Nodup ∧
      (∀ k l, (k, l) ∈ is ↔ Declared strings plurals k l) ∧
      mapPlan package resources strings plurals = is.map fun i =>
        .ok (.document (mapPath package resources i.1 i.2) (mapText strings plurals i.1 i.2)) := by
  have hkeys : ((stringValues strings).map Prod.fst).Nodup := by rwa [stringValues, List.map_map]
  have hkeys' : ((pluralValues plurals).map Prod.fst).Nodup := by rwa [pluralValues, List.map_map]
  refine ⟨(byLocale (stringValues strings)).keys.map (Kind.strings, ·) ++
    (byLocale (pluralValues plurals)).keys.map (Kind.plurals, ·), ?_, fun k l => ?_, ?_⟩
  · refine List.nodup_append.2 ⟨List.Nodup.map (Prod.mk_right_injective _) (nodup_keys _),
      List.Nodup.map (Prod.mk_right_injective _) (nodup_keys _), ?_⟩
    rintro _ hi _ hi' rfl
    obtain ⟨l, -, rfl⟩ := List.mem_map.1 hi
    obtain ⟨l', -, heq⟩ := List.mem_map.1 hi'
    cases (Prod.mk.inj heq).1
  · cases k with
    | strings => simp [Declared, mem_keys_byLocale, stringValues]
    | plurals => simp [Declared, mem_keys_byLocale, pluralValues]
    | images => simp [Declared]
    | colors => simp [Declared]
  · rw [mapPlan, plan, plan,
      maps_eq package resources .strings Json.text hkeys (List.forall_mem_map.2 hstringsBase),
      maps_eq package resources .plurals formsJson hkeys' (List.forall_mem_map.2 hpluralsBase),
      List.map_append, List.map_map, List.map_map]
    rfl

/-! ### Maps read as JSON -/

theorem proper_members (k : Kind) (l : Locale) :
    (Json.record (members strings plurals k l)).Proper Json.IsNatural := by
  rw [Json.proper_record]
  intro m hm
  cases k with
  | strings =>
    rw [members] at hm
    obtain ⟨e, -, v, -, hm⟩ := mem_forLocale.1 hm
    rw [List.mem_singleton.1 hm]
    exact Json.proper_text v
  | plurals =>
    rw [members] at hm
    obtain ⟨e, -, forms, -, hm⟩ := mem_forLocale.1 hm
    rw [List.mem_singleton.1 hm, pluralMember, Json.proper_record]
    exact List.forall_mem_map.2 fun form _ => Json.proper_text form.2
  | images => cases hm
  | colors => cases hm

theorem nodup_members (hstrings : (strings.map Entry.key).Nodup)
    (hplurals : (plurals.map Entry.key).Nodup) (k : Kind) (l : Locale) :
    ((members strings plurals k l).map Prod.fst).Nodup := by
  cases k with
  | strings =>
    exact nodup_map_forLocale_singleton (f := stringMember) (g := Prod.fst)
      (by rwa [stringValues, List.map_map]) (fun _ _ heq => Key.ext heq) l
  | plurals =>
    exact nodup_map_forLocale_singleton (f := pluralMember) (g := Prod.fst)
      (by rwa [pluralValues, List.map_map]) (fun _ _ heq => Key.ext heq) l
  | images => exact List.nodup_nil
  | colors => exact List.nodup_nil

end Plans

/-- **Maps read back.** Strings and plurals with distinct keys, each with a value for the base
locale, are written for JavaScript without fault. The files are pairwise distinct, and they are
maps: one for each kind and each locale that a resource of the kind declares. Read as JSON, a map is
an object with a member for each of these resources, in order and each once, and no others. -/
theorem read_mapPath {package : PackageName} {resources : Path} {strings : List (Entry .strings)}
    {plurals : List (Entry .plurals)} (hstrings : (strings.map Entry.key).Nodup)
    (hplurals : (plurals.map Entry.key).Nodup)
    (hstringsBase : ∀ e ∈ strings, OrderedMap.contains e.value .base = true)
    (hpluralsBase : ∀ e ∈ plurals, OrderedMap.contains e.value .base = true) :
    (∀ step ∈ mapPlan package resources strings plurals, ∃ o, step = .ok o) ∧
      ∀ t s written,
        (mapPlan package resources strings plurals).perform.run t = (.ok written, s) →
        (written.map location).Nodup ∧
          (∀ p, p ∈ written ↔
            ∃ k l, p = mapPath package resources k l ∧ Declared strings plurals k l) ∧
          ∀ k l, Declared strings plurals k l →
            ((members strings plurals k l).map Prod.fst).Nodup ∧
              ∃ text, s.readText (mapPath package resources k l) = .ok text ∧
                Json.read text = some (.record (members strings plurals k l)) := by
  obtain ⟨is, hnodup, his, hplan⟩ := exists_mapPlan_eq package resources hstrings hplurals
    hstringsBase hpluralsBase
  refine ⟨fun step hstep => ?_, fun t s written hrun => ?_⟩
  · rw [hplan] at hstep
    obtain ⟨i, -, rfl⟩ := List.mem_map.1 hstep
    exact ⟨_, rfl⟩
  · rw [hplan] at hrun
    obtain ⟨rfl, hplaces, hread⟩ := Plan.perform_documents
      (List.Nodup.map (location_mapPath_injective package resources) hnodup) hrun
    refine ⟨hplaces, fun p => ?_, fun k l hl => ⟨nodup_members hstrings hplurals k l, ?_⟩⟩
    · rw [List.mem_map]
      constructor
      · rintro ⟨⟨k, l⟩, hi, rfl⟩
        exact ⟨k, l, rfl, (his k l).1 hi⟩
      · rintro ⟨k, l, rfl, hl⟩
        exact ⟨(k, l), (his k l).2 hl, rfl⟩
    · exact ⟨_, FileTree.readText_of_read (hread (k, l) ((his k l).2 hl)),
        Json.read_document (proper_members k l)⟩

/-! ### Texts and names that need care -/

namespace Cart

/-- A string with a text that needs escapes, and no value for the locale of the plural. -/
def strings : List (Entry .strings) :=
  [⟨⟨"cart", by decide⟩, OrderedMap.ofList [(.base, "\"a\\b\"\n\u0001😀")]⟩]

/-- The locale of a form of the plural. -/
def italian : Locale := .tag ⟨"it", by decide⟩ none (some ⟨"CH", by decide⟩)

/-- A plural whose forms are not in the order of the categories. -/
def plurals : List (Entry .plurals) :=
  [⟨⟨"cart", by decide⟩, OrderedMap.ofList
    [(italian, OrderedMap.ofList [(.other, "\t"), (.one, "")]),
      (.base, OrderedMap.ofList [(.other, "/")])]⟩]

/-- A package that ends like a map of strings. -/
def package : PackageName := ⟨"shop.a_strings", by decide⟩

/-- What writes both. -/
def writing : FileAction GenerateError (List Path) :=
  (mapPlan package ⟨"out"⟩ strings plurals).perform

end Cart

theorem read_mapPath_cart : ∃ written s text,
    Cart.writing.run .empty = (.ok written, s) ∧
      s.readText (mapPath Cart.package ⟨"out"⟩ .plurals Cart.italian) = .ok text ∧
      Json.read text = some
        (.record [("cart", .record [("other", .text "\t"), ("one", .text "")])]) := by
  have hwritten : (Cart.writing.run .empty).1 =
      .ok [⟨"out/localization/shop.a_strings_strings.json"⟩,
        ⟨"out/localization/shop.a_strings_plurals_it-CH.json"⟩,
        ⟨"out/localization/shop.a_strings_plurals.json"⟩] := by decide +kernel
  have hrun := FileAction.run_eq_of_fst hwritten
  obtain ⟨-, hmaps⟩ := @read_mapPath Cart.package ⟨"out"⟩ Cart.strings Cart.plurals (by decide)
    (by decide) (by decide +kernel) (by decide +kernel)
  obtain ⟨-, -, hall⟩ := hmaps .empty _ _ hrun
  have hdeclared : Declared Cart.strings Cart.plurals .plurals Cart.italian :=
    ⟨_, List.mem_singleton_self _, by decide +kernel⟩
  obtain ⟨-, text, htext, hread⟩ := hall .plurals Cart.italian hdeclared
  exact ⟨_, _, text, hrun, htext, hread.trans rfl⟩

end ResourceCompiler.Native.Js
