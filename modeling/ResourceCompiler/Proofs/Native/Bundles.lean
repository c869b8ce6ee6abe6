import Mathlib.Data.List.Nodup
import ResourceCompiler.Proofs.Native.Grouping
import ResourceCompiler.Proofs.Native.Performing
import ResourceCompiler.Proofs.Native.Places
import ResourceCompiler.Proofs.Native.Properties

/-!
# Bundles read back

The bundles of the JVM are files at places of their own, and a reader of properties gets from each
the texts that the entries have for its locale.

* `Jvm.bundlePath`: where the bundle of a kind for a locale goes.
* `Jvm.stringPairs`, `Jvm.pluralPairs`: what a bundle is written from.
* `Jvm.loaded?`: what is read from a bundle.
* `Jvm.bundleFile_injective`: bundles of different kinds or locales have different names.
* `Jvm.loaded?_bundlePlan`: bundles read back.
-/

namespace ResourceCompiler.Native.Jvm

open OrderedMap ResourceCompiler.Path

/-! ### Names of bundles -/

/-- The path of the bundle of a kind for a locale. -/
def bundlePath (package : PackageName) (className : ClassName) (resources : Path) (k : Kind)
    (l : Locale) : Path :=
  resources / (bundleName package className k ++ localeSuffix l ++ ".properties")

theorem toList_localeSuffix (l : Locale) :
    (localeSuffix l).toList = l.parts.flatMap fun part => '_' :: part.toList := by
  cases l with
  | base => rfl
  | tag language script region =>
    show (String.join _).toList = _
    rw [String.toList_join, List.flatMap_map]
    exact List.flatMap_congr fun part _ => String.toList_append

/-- The name of a kind and the suffix of a locale are fields with `_` between them. -/
theorem joined_kind_parts (k : Kind) (l : Locale) :
    k.text.toList ++ (localeSuffix l).toList =
      Text.joined '_' (k.text.toList :: l.parts.map String.toList) := by
  have h : ∀ (first : List Char) (parts : List String),
      first ++ parts.flatMap (fun part => '_' :: part.toList) =
        Text.joined '_' (first :: parts.map String.toList) := by
    intro first parts
    induction parts generalizing first with
    | nil => exact List.append_nil first
    | cons part parts ih =>
      rw [List.flatMap_cons, List.map_cons, Text.joined_cons_of_ne_nil _ _ (List.cons_ne_nil _ _),
        List.cons_append, ih]
  rw [toList_localeSuffix, h]

/-- The name of a kind has no `_`, and neither have the parts of a locale. -/
theorem fields_kind_parts (k : Kind) (l : Locale) :
    Text.fields '_' (k.text.toList ++ (localeSuffix l).toList) =
      k.text.toList :: l.parts.map String.toList := by
  rw [joined_kind_parts, Text.fields_joined (List.cons_ne_nil _ _)]
  intro part hpart
  rcases List.mem_cons.1 hpart with rfl | hpart
  · cases k <;> decide
  · obtain ⟨p, hp, rfl⟩ := List.mem_map.1 hpart
    exact fun hmem => absurd (Locale.isAlphanum_of_mem_parts hp hmem) (by decide)

/-- A kind and a locale are told by what the name of a bundle ends with. -/
theorem kind_suffix_injective {k k' : Kind} {l l' : Locale}
    (h : k.text.toList ++ (localeSuffix l).toList = k'.text.toList ++ (localeSuffix l').toList) :
    k = k' ∧ l = l' := by
  have hcons := congrArg (Text.fields '_') h
  rw [fields_kind_parts, fields_kind_parts] at hcons
  obtain ⟨hkind, hparts⟩ := List.cons.inj hcons
  exact ⟨Kind.text_injective (String.toList_injective hkind), Locale.parts_injective
    (List.map_injective_iff.2 (fun _ _ => String.toList_injective) hparts)⟩

/-- Locales have suffixes of their own. -/
theorem localeSuffix_injective : Function.Injective localeSuffix := by
  intro l l' h
  have hnames : Kind.strings.text.toList ++ (localeSuffix l).toList =
      Kind.strings.text.toList ++ (localeSuffix l').toList := by rw [h]
  exact (kind_suffix_injective hnames).2

/-- Bundles of different kinds or locales have different names. -/
theorem bundleFile_injective {package : PackageName} {className : ClassName} {k k' : Kind}
    {l l' : Locale} (h : bundleFile package className k l = bundleFile package className k' l') :
    k = k' ∧ l = l' := by
  have hlist := congrArg String.toList h
  simp only [bundleFile, String.toList_append] at hlist
  have hnames := List.append_cancel_right hlist
  simp only [List.append_assoc] at hnames
  exact kind_suffix_injective (List.append_cancel_left (List.append_cancel_left
    (List.append_cancel_left (List.append_cancel_left hnames))))

variable {package : PackageName} {className : ClassName} {resources : Path}

theorem location_bundlePath (k : Kind) (l : Locale) :
    (bundlePath package className resources k l).location =
      resources.location ++ ["localization", bundleFile package className k l] := by
  rw [bundlePath, bundlePath_eq]
  exact location_pair resources (IsStem.isName (by decide))
    (isStem_bundleFile package className k l).isName

theorem location_bundlePath_injective {k k' : Kind} {l l' : Locale}
    (h : (bundlePath package className resources k l).location =
      (bundlePath package className resources k' l').location) : k = k' ∧ l = l' := by
  rw [location_bundlePath, location_bundlePath] at h
  have hnames := List.append_cancel_left h
  simp only [List.cons.injEq, and_true, true_and] at hnames
  exact bundleFile_injective hnames

/-! ### What bundles are written from -/

/-- The pair of a string: its key and its text. -/
def stringPairs (e : Key × String) : List (String × String) := [(e.1.text, e.2)]

/-- The pairs of a plural: the key with each category, and the text of that form. -/
def pluralPairs (e : Key × PluralForms) : List (String × String) :=
  e.2.entries.map fun (q, text) => (e.1.text ++ "." ++ q.text, text)

theorem toList_escape (isKey : Bool) (s : String) :
    (escape isKey s).toList = escapeProperty isKey s.toList :=
  String.toList_ofList

theorem toList_stringLines (e : Key × String) :
    (stringLines e).map String.toList = (stringPairs e).map Properties.line := by
  have hline : (escape true e.1.text ++ "=" ++ escape false e.2).toList =
      Properties.line (e.1.text, e.2) := by
    rw [String.toList_append, String.toList_append, toList_escape, toList_escape, List.append_assoc]
    rfl
  exact congrArg (fun line => [line]) hline

theorem toList_pluralLines (e : Key × PluralForms) :
    (pluralLines e).map String.toList = (pluralPairs e).map Properties.line := by
  have hplain (q : Quantity) :
      ('.' :: q.text.toList).all (fun x => escapeChar true false x == [x]) = true := by
    cases q <;> decide
  have hquantity (q : Quantity) : ∀ x ∈ '.' :: q.text.toList, escapeChar true false x = [x] :=
    fun x hx => eq_of_beq (List.all_eq_true.1 (hplain q) x hx)
  have hline (form : Quantity × String) :
      (escape true e.1.text ++ "." ++ form.1.text ++ "=" ++ escape false form.2).toList =
        Properties.line (e.1.text ++ "." ++ form.1.text, form.2) := by
    have hkey : (e.1.text ++ "." ++ form.1.text).toList =
        e.1.text.toList ++ '.' :: form.1.text.toList := by
      rw [String.toList_append, String.toList_append, List.append_assoc]
      rfl
    rw [Properties.line, hkey, Properties.escapeProperty_append
      (isIdentifier_ne_nil e.1.isIdentifier) (hquantity form.1)]
    simp only [String.toList_append, toList_escape, List.append_assoc]
    rfl
  rw [pluralLines, pluralPairs, List.map_map, List.map_map]
  exact List.map_congr_left fun form _ => hline form

theorem nodup_stringPairs {entries : List (Key × OrderedMap Locale String)}
    (h : (entries.map Prod.fst).Nodup) (l : Locale) :
    ((forLocale stringPairs entries l).map Prod.fst).Nodup :=
  nodup_map_forLocale_singleton (f := fun e => (e.1.text, e.2)) (g := Prod.fst) h
    (fun _ _ heq => Key.ext heq) l

/-- The key and the category can be told from what stands for both. -/
theorem pluralKey_injective {key key' : Key} {q q' : Quantity}
    (h : key.text ++ "." ++ q.text = key'.text ++ "." ++ q'.text) : key = key' ∧ q = q' := by
  have hfields (key : Key) (q : Quantity) :
      Text.fields '.' (key.text ++ "." ++ q.text).toList = [key.text.toList, q.text.toList] := by
    have hkey : '.' ∉ key.text.toList := fun hmem =>
      absurd (key.isIdentifierChar_of_mem hmem) (by decide)
    have hquantity : '.' ∉ q.text.toList := by cases q <;> decide
    have happend : (key.text ++ "." ++ q.text).toList =
        key.text.toList ++ '.' :: q.text.toList := by
      rw [String.toList_append, String.toList_append, List.append_assoc]
      rfl
    rw [happend, Text.fields_append_sep hkey, Text.fields_of_not_mem hquantity]
  have hlist := congrArg (fun s => Text.fields '.' s.toList) h
  simp only [hfields, List.cons.injEq, and_true] at hlist
  refine ⟨Key.ext (String.toList_injective hlist.1), ?_⟩
  have hread := Quantity.ofText?_text q
  rw [String.toList_injective hlist.2, Quantity.ofText?_text] at hread
  exact (Option.some.inj hread).symm

theorem nodup_pluralPairs {entries : List (Key × OrderedMap Locale PluralForms)}
    (h : (entries.map Prod.fst).Nodup) (l : Locale) :
    ((forLocale pluralPairs entries l).map Prod.fst).Nodup := by
  refine nodup_map_forLocale h (fun e => ?_) ?_ l
  · have hkeys : (pluralPairs e).map Prod.fst =
        e.2.keys.map fun q => e.1.text ++ "." ++ q.text := by
      rw [pluralPairs, OrderedMap.keys, List.map_map, List.map_map]
      rfl
    rw [hkeys]
    exact e.2.nodup_keys.map fun q q' hq => (pluralKey_injective hq).2
  · intro e e' a ha a' ha' heq
    obtain ⟨form, -, rfl⟩ := List.mem_map.1 ha
    obtain ⟨form', -, rfl⟩ := List.mem_map.1 ha'
    exact (pluralKey_injective heq).1

/-! ### Bundles of a kind -/

section Bundles

variable {V : Type} {k : Kind} {lines : Key × V → List String}
  {pairs : Key × V → List (String × String)} {entries : List (Key × OrderedMap Locale V)}

/-- The text of the bundle for a locale. -/
def bundleText (lines : Key × V → List String) (entries : List (Key × OrderedMap Locale V))
    (l : Locale) : String :=
  String.join ((forLocale lines entries l).map fun line => line ++ "\n")

/-- A bundle holds the lines of the pairs that its entries have for its locale. -/
theorem toList_bundleText (h : ∀ e, (lines e).map String.toList = (pairs e).map Properties.line)
    (entries : List (Key × OrderedMap Locale V)) (l : Locale) :
    (bundleText lines entries l).toList =
      (forLocale pairs entries l).flatMap fun e => Properties.line e ++ ['\n'] := by
  have hlines : (forLocale lines entries l).map String.toList =
      (forLocale pairs entries l).map Properties.line := by
    rw [forLocale, forLocale, List.map_flatMap, List.map_flatMap]
    refine List.flatMap_congr fun e _ => ?_
    cases e.2.get? l with
    | none => rfl
    | some v => exact h (e.1, v)
  have hbreak (line : String) : (line ++ "\n").toList = line.toList ++ ['\n'] := by
    rw [String.toList_append]
    rfl
  rw [bundleText, String.toList_join, List.flatMap_map]
  simp only [hbreak]
  rw [← List.flatMap_map (f := String.toList) (g := fun line => line ++ ['\n']), hlines,
    List.flatMap_map]

/-- The bundle for a locale. -/
def bundle (package : PackageName) (className : ClassName) (resources : Path) (k : Kind)
    (lines : Key × V → List String) (entries : List (Key × OrderedMap Locale V)) (l : Locale) :
    Output :=
  .document (bundlePath package className resources k l) (bundleText lines entries l)

theorem path_bundle (package : PackageName) (className : ClassName) (resources : Path) (k : Kind)
    (lines : Key × V → List String) (entries : List (Key × OrderedMap Locale V)) (l : Locale) :
    (bundle package className resources k lines entries l).path =
      bundlePath package className resources k l := rfl

/-- There is one bundle for each locale that has a line. -/
theorem exists_bundles_eq (package : PackageName) (className : ClassName) (resources : Path)
    (k : Kind) (lines : Key × V → List String) (entries : List (Key × OrderedMap Locale V)) :
    ∃ locales : List Locale, locales.Nodup ∧ (∀ l, l ∈ locales ↔ forLocale lines entries l ≠ []) ∧
      bundles package className resources k lines entries =
        (locales.map (bundle package className resources k lines entries)).map .ok := by
  refine ⟨(group (located lines entries)).keys, nodup_keys _, fun _ => mem_keys_group_located, ?_⟩
  rw [List.map_map]
  exact map_entries_group_located (fun l items => (Except.ok (.document
    (bundlePath package className resources k l) (String.join (items.map (· ++ "\n")))) :
      Except GenerateError Output)) lines entries

/-! ### Bundles in a file tree -/

/-- What is read from a bundle when the given files are written. A bundle that is not written counts
as empty. -/
def loaded? (s : FileTree) (written : List Path) (p : Path) : Option (List (String × String)) :=
  if p ∈ written then
    match s.read p with
    | .ok content => Properties.load? content
    | .error _ => none
  else some []

/-- Among files at places of their own, the bundles of a kind read back. -/
theorem loaded?_of_writes {t s : FileTree} {outputs : List Output} {locales : List Locale}
    (hlines : ∀ e, (lines e).map String.toList = (pairs e).map Properties.line)
    (hlocales : ∀ l, l ∈ locales ↔ forLocale lines entries l ≠ []) (hwrites : Writes t outputs s)
    (hnodup : (outputs.map fun o => o.path.location).Nodup)
    (houtputs : ∀ l ∈ locales, bundle package className resources k lines entries l ∈ outputs)
    (hpaths : ∀ l, bundlePath package className resources k l ∈ outputs.map Output.path →
      l ∈ locales) (l : Locale) :
    loaded? s (outputs.map Output.path) (bundlePath package className resources k l) =
      some (forLocale pairs entries l) := by
  have htext := toList_bundleText hlines entries l
  rw [loaded?]
  by_cases hl : l ∈ locales
  · have hread := hwrites.read_of_nodup hnodup (houtputs l hl)
    have hmem := List.mem_map_of_mem (f := Output.path) (houtputs l hl)
    rw [path_bundle] at hmem
    rw [if_pos hmem, hread]
    exact Properties.load?_toUTF8 htext
  · -- Without a line there is no pair, since each pair has a line.
    have hempty : forLocale lines entries l = [] := by
      by_contra hne
      exact hl ((hlocales l).2 hne)
    rw [if_neg fun hmem => hl (hpaths l hmem)]
    rw [bundleText, hempty] at htext
    cases hpairs : forLocale pairs entries l with
    | nil => rfl
    | cons e rest =>
      rw [hpairs, List.flatMap_cons, Properties.line] at htext
      exact absurd htext.symm (by simp)

end Bundles

/-- What is written for strings and plurals. -/
def bundlePlan (package : PackageName) (className : ClassName) (resources : Path)
    (strings : List (Entry .strings)) (plurals : List (Entry .plurals)) : Plan :=
  plan package className resources .strings strings ++
    plan package className resources .plurals plurals

variable {V W : Type} {lines : Key × V → List String} {entries : List (Key × OrderedMap Locale V)}
  {lines' : Key × W → List String} {entries' : List (Key × OrderedMap Locale W)}
  {k k' : Kind} {locales locales' : List Locale}

/-- Bundles of two kinds are at places of their own. -/
theorem nodup_locations (h : locales.Nodup) (h' : locales'.Nodup) (hk : k ≠ k') :
    ((locales.map (bundle package className resources k lines entries) ++
      locales'.map (bundle package className resources k' lines' entries')).map
        fun o => o.path.location).Nodup := by
  have hplaces (V : Type) (k : Kind) (lines : Key × V → List String)
      (entries : List (Key × OrderedMap Locale V)) (locales : List Locale) :
      (locales.map (bundle package className resources k lines entries)).map
          (fun o => o.path.location) =
        (locales.map fun l => bundleFile package className k l).map fun name =>
          resources.location ++ ["localization", name] := by
    rw [List.map_map, List.map_map]
    refine List.map_congr_left fun l _ => ?_
    rw [Function.comp_apply, Function.comp_apply, path_bundle, location_bundlePath]
  have hnames : Function.Injective fun name : String =>
      resources.location ++ ["localization", name] := by
    intro name name' heq
    simpa using List.append_cancel_left heq
  have hfile (k : Kind) : Function.Injective fun l => bundleFile package className k l :=
    fun l l' heq => (bundleFile_injective heq).2
  rw [List.map_append, hplaces, hplaces, ← List.map_append]
  refine List.Nodup.map hnames (List.nodup_append.2 ⟨h.map (hfile k), h'.map (hfile k'), ?_⟩)
  intro name hname name' hname' heq
  obtain ⟨l, -, rfl⟩ := List.mem_map.1 hname
  obtain ⟨l', -, rfl⟩ := List.mem_map.1 hname'
  exact hk (bundleFile_injective heq).1

/-- A bundle is only found among those of its kind, and for its locale. -/
theorem of_bundlePath_mem {l : Locale} (h : bundlePath package className resources k l ∈
    (locales.map (bundle package className resources k' lines entries)).map Output.path) :
    k = k' ∧ l ∈ locales := by
  obtain ⟨o, ho, hpath⟩ := List.mem_map.1 h
  obtain ⟨l', hl', rfl⟩ := List.mem_map.1 ho
  rw [path_bundle] at hpath
  obtain ⟨hk, rfl⟩ := location_bundlePath_injective (congrArg location hpath.symm)
  exact ⟨hk, hl'⟩

/-- **Bundles read back.** Entries with distinct keys, each with a value for the base locale, are
written without fault to files that are pairwise distinct. A reader of properties then gets for each
locale the keys with the texts that the strings have for it, and the keys and categories with the
texts that the plurals have for it: each once, in order, and nothing else. -/
theorem loaded?_bundlePlan {package : PackageName} {className : ClassName} {resources : Path}
    {strings : List (Entry .strings)} {plurals : List (Entry .plurals)}
    (hstrings : (strings.map Entry.key).Nodup) (hplurals : (plurals.map Entry.key).Nodup)
    (hstringsBase : ∀ e ∈ stringValues strings, e.2.contains .base = true)
    (hpluralsBase : ∀ e ∈ pluralValues plurals, e.2.contains .base = true) :
    (∀ step ∈ bundlePlan package className resources strings plurals, ∃ o, step = .ok o) ∧
      ∀ t s written,
        (bundlePlan package className resources strings plurals).perform.run t = (.ok written, s) →
        (written.map location).Nodup ∧
          ∀ l,
            loaded? s written (bundlePath package className resources .strings l) =
                some (forLocale stringPairs (stringValues strings) l) ∧
              loaded? s written (bundlePath package className resources .plurals l) =
                some (forLocale pluralPairs (pluralValues plurals) l) ∧
              ((forLocale stringPairs (stringValues strings) l).map Prod.fst).Nodup ∧
              ((forLocale pluralPairs (pluralValues plurals) l).map Prod.fst).Nodup := by
  obtain ⟨first, hfirst, hmem, hplan⟩ := exists_bundles_eq package className resources .strings
    stringLines (stringValues strings)
  obtain ⟨second, hsecond, hmem', hplan'⟩ := exists_bundles_eq package className resources .plurals
    pluralLines (pluralValues plurals)
  have heq : bundlePlan package className resources strings plurals =
      (first.map (bundle package className resources .strings stringLines (stringValues strings)) ++
        second.map (bundle package className resources .plurals pluralLines
          (pluralValues plurals))).map .ok := by
    rw [bundlePlan, plan, plan, requireBase_eq_none_iff.2 hstringsBase,
      requireBase_eq_none_iff.2 hpluralsBase, List.map_append, ← hplan, ← hplan']
    rfl
  refine ⟨fun step hstep => ?_, fun t s written hrun => ?_⟩
  · rw [heq] at hstep
    obtain ⟨o, -, rfl⟩ := List.mem_map.1 hstep
    exact ⟨o, rfl⟩
  · obtain ⟨outputs, houtputs, rfl, hwrites⟩ := Plan.perform_eq_ok hrun
    rw [heq] at houtputs
    obtain rfl := List.map_injective_iff.2 (fun _ _ => Except.ok.inj) houtputs
    have hnodup : ((first.map (bundle package className resources .strings stringLines
        (stringValues strings)) ++ second.map (bundle package className resources .plurals
          pluralLines (pluralValues plurals))).map fun o => o.path.location).Nodup :=
      nodup_locations hfirst hsecond Kind.noConfusion
    refine ⟨by rw [List.map_map]; exact hnodup, fun l => ⟨?_, ?_, ?_, ?_⟩⟩
    · refine loaded?_of_writes toList_stringLines hmem hwrites hnodup
        (fun l hl => List.mem_append_left _ (List.mem_map_of_mem hl)) (fun l hl => ?_) l
      rw [List.map_append] at hl
      rcases List.mem_append.1 hl with hl | hl
      · exact (of_bundlePath_mem hl).2
      · exact absurd (of_bundlePath_mem hl).1 Kind.noConfusion
    · refine loaded?_of_writes toList_pluralLines hmem' hwrites hnodup
        (fun l hl => List.mem_append_right _ (List.mem_map_of_mem hl)) (fun l hl => ?_) l
      rw [List.map_append] at hl
      rcases List.mem_append.1 hl with hl | hl
      · exact absurd (of_bundlePath_mem hl).1 Kind.noConfusion
      · exact (of_bundlePath_mem hl).2
    · exact nodup_stringPairs (by rwa [stringValues, List.map_map]) l
    · exact nodup_pluralPairs (by rwa [pluralValues, List.map_map]) l

/-! ### Texts that need escapes -/

namespace Greeting

/-- A string whose texts have a blank in front, a separator, a backslash, and a character beyond 16
bits. -/
def strings : List (Entry .strings) :=
  [⟨⟨"greeting", by decide⟩, OrderedMap.ofList
    [(.base, " a=b:\\"), (.tag ⟨"fr", by decide⟩ none (some ⟨"CA", by decide⟩), "😀")]⟩]

/-- A plural with forms that start like comments. -/
def plurals : List (Entry .plurals) :=
  [⟨⟨"items", by decide⟩, OrderedMap.ofList
    [(.base, OrderedMap.ofList [(.one, "#1"), (.other, "!\n")])]⟩]

/-- The package of both. -/
def shop : PackageName := ⟨"shop", by decide⟩

/-- The path of a bundle of either kind. -/
def path (k : Kind) (l : Locale) : Path := bundlePath shop .default ⟨"out"⟩ k l

/-- What writes both. -/
def writing : FileAction GenerateError (List Path) :=
  (bundlePlan shop .default ⟨"out"⟩ strings plurals).perform

end Greeting

theorem loaded?_bundlePlan_greeting : ∃ written s,
    Greeting.writing.run .empty = (.ok written, s) ∧
      loaded? s written (Greeting.path .strings .base) = some [("greeting", " a=b:\\")] ∧
      loaded? s written (Greeting.path .plurals .base) =
        some [("items.one", "#1"), ("items.other", "!\n")] := by
  have hwritten : (Greeting.writing.run .empty).1 =
      .ok [⟨"out/localization/shop_MR_strings.properties"⟩,
        ⟨"out/localization/shop_MR_strings_fr_CA.properties"⟩,
        ⟨"out/localization/shop_MR_plurals.properties"⟩] := by decide +kernel
  have hrun : Greeting.writing.run .empty =
      (.ok [⟨"out/localization/shop_MR_strings.properties"⟩,
        ⟨"out/localization/shop_MR_strings_fr_CA.properties"⟩,
        ⟨"out/localization/shop_MR_plurals.properties"⟩], (Greeting.writing.run .empty).2) := by
    rw [← hwritten]
  have hload := (@loaded?_bundlePlan Greeting.shop .default ⟨"out"⟩ Greeting.strings
    Greeting.plurals (by decide) (by decide) (by decide +kernel) (by decide +kernel)).2
  obtain ⟨-, hlocales⟩ := hload .empty (Greeting.writing.run .empty).2 _ hrun
  obtain ⟨hstrings, hplurals, -, -⟩ := hlocales .base
  refine ⟨_, _, hrun, hstrings.trans ?_, hplurals.trans ?_⟩
  · decide +kernel
  · decide +kernel

end ResourceCompiler.Native.Jvm
