import ResourceCompiler.Proofs.Native.AndroidReadBack
import ResourceCompiler.Proofs.Native.Bundles

/-!
# Written locales

A text is a locale if it is `base` or a tag `language[-Script][-REGION]`. The parts of a tag differ
in their form, so that each is found by its form alone, and the names that are made of them tell the
locale.

* `Locale.IsTag`: the form of a tag, letter by letter.
* `Locale.exists_ofText?_iff`: the texts that are locales.
* `Locale.script?_eq_laterPart?`, `Locale.region?_eq_laterPart?`: parts found by their form.
* `Locale.decomposes`: what a text that is a locale tells, and what its names tell.
-/

namespace ResourceCompiler.Locale

/-! ### The form of a tag -/

/-- Two or three lower case letters. -/
def LanguageForm (cs : List Char) : Prop :=
  (cs.length = 2 ∨ cs.length = 3) ∧ ∀ c ∈ cs, 'a' ≤ c ∧ c ≤ 'z'

/-- An upper case letter and three lower case letters. -/
def ScriptForm (cs : List Char) : Prop :=
  ∃ first rest, cs = first :: rest ∧ ('A' ≤ first ∧ first ≤ 'Z') ∧
    rest.length = 3 ∧ ∀ c ∈ rest, 'a' ≤ c ∧ c ≤ 'z'

/-- Two upper case letters or three digits. -/
def RegionForm (cs : List Char) : Prop :=
  cs.length = 2 ∧ (∀ c ∈ cs, 'A' ≤ c ∧ c ≤ 'Z') ∨ cs.length = 3 ∧ ∀ c ∈ cs, '0' ≤ c ∧ c ≤ '9'

/-- Whether a text is a tag `language[-Script][-REGION]`. -/
def IsTag (cs : List Char) : Prop :=
  ∃ (language : List Char) (script region : Option (List Char)), LanguageForm language ∧
    (∀ s ∈ script, ScriptForm s) ∧ (∀ r ∈ region, RegionForm r) ∧
    cs = language ++ script.elim [] ('-' :: ·) ++ region.elim [] ('-' :: ·)

theorem isLower_iff {c : Char} : c.isLower = true ↔ 'a' ≤ c ∧ c ≤ 'z' := by
  show (decide (c.val ≥ 'a'.val) && decide (c.val ≤ 'z'.val)) = true ↔ _
  rw [Bool.and_eq_true, decide_eq_true_iff, decide_eq_true_iff]
  rfl

theorem isUpper_iff {c : Char} : c.isUpper = true ↔ 'A' ≤ c ∧ c ≤ 'Z' := by
  show decide (c.val ≥ 'A'.val ∧ c.val ≤ 'Z'.val) = true ↔ _
  rw [decide_eq_true_iff]
  rfl

theorem isDigit_iff {c : Char} : c.isDigit = true ↔ '0' ≤ c ∧ c ≤ '9' := by
  show (decide (c.val ≥ '0'.val) && decide (c.val ≤ '9'.val)) = true ↔ _
  rw [Bool.and_eq_true, decide_eq_true_iff, decide_eq_true_iff]
  rfl

theorem isLanguage_iff {cs : List Char} : isLanguage cs = true ↔ LanguageForm cs := by
  simp [isLanguage, LanguageForm, isLower_iff]

theorem isScript_iff {cs : List Char} : isScript cs = true ↔ ScriptForm cs := by
  constructor
  · intro h
    unfold isScript at h
    split at h
    · rename_i a b c d
      simp only [Bool.and_eq_true, isUpper_iff, isLower_iff] at h
      refine ⟨a, [b, c, d], rfl, h.1.1.1, rfl, ?_⟩
      simp only [List.forall_mem_cons]
      exact ⟨h.1.1.2, h.1.2, h.2, List.forall_mem_nil _⟩
    · cases h
  · rintro ⟨a, rest, rfl, ha, hlength, hrest⟩
    obtain ⟨b, c, d, rfl⟩ := List.length_eq_three.1 hlength
    simp only [List.forall_mem_cons] at hrest
    simp only [isScript, Bool.and_eq_true, isUpper_iff, isLower_iff]
    exact ⟨⟨⟨ha, hrest.1⟩, hrest.2.1⟩, hrest.2.2.1⟩

theorem isRegion_iff {cs : List Char} : isRegion cs = true ↔ RegionForm cs := by
  simp [isRegion, RegionForm, isUpper_iff, isDigit_iff]

/-- A script has four characters, and a region has fewer. -/
theorem not_regionForm_of_scriptForm {cs : List Char} (h : ScriptForm cs) : ¬ RegionForm cs := by
  obtain ⟨first, rest, rfl, -, hlength, -⟩ := h
  rintro (⟨hregion, -⟩ | ⟨hregion, -⟩)
  all_goals
    rw [List.length_cons] at hregion
    omega

/-! ### The texts that are locales -/

/-- The written form of a tag has its parts in order, with a hyphen in front of each later one. -/
theorem toList_text_tag (language : Subtag isLanguage) (script : Option (Subtag isScript))
    (region : Option (Subtag isRegion)) :
    (tag language script region).text.toList =
      language.val.toList ++ (script.map (·.val.toList)).elim [] ('-' :: ·) ++
        (region.map (·.val.toList)).elim [] ('-' :: ·) := by
  cases script <;> cases region <;>
    simp [text, parts, language?, script?, region?, Text.joined]

theorem isTag_text {l : Locale} (h : l ≠ base) : IsTag l.text.toList := by
  cases l with
  | base => exact absurd rfl h
  | tag language script region =>
    refine ⟨language.val.toList, script.map (·.val.toList), region.map (·.val.toList),
      isLanguage_iff.1 language.property, ?_, ?_, toList_text_tag language script region⟩
    · intro s hs
      obtain ⟨part, -, rfl⟩ := Option.map_eq_some_iff.1 hs
      exact isScript_iff.1 part.property
    · intro r hr
      obtain ⟨part, -, rfl⟩ := Option.map_eq_some_iff.1 hr
      exact isRegion_iff.1 part.property

/-- Texts of a form are the parts of that form. -/
theorem exists_subtag {form : List Char → Bool} {cs : List Char} (h : form cs = true) :
    ∃ part : Subtag form, part.val.toList = cs :=
  ⟨⟨String.ofList cs, by rwa [String.toList_ofList]⟩, String.toList_ofList⟩

theorem exists_optional {form : List Char → Bool} {text : Option (List Char)}
    (h : ∀ cs ∈ text, form cs = true) :
    ∃ part : Option (Subtag form), part.map (·.val.toList) = text := by
  cases text with
  | none => exact ⟨none, rfl⟩
  | some cs =>
    obtain ⟨part, hpart⟩ := exists_subtag (h cs rfl)
    exact ⟨some part, congrArg some hpart⟩

theorem exists_text_of_isTag {s : String} (h : IsTag s.toList) : ∃ l : Locale, l.text = s := by
  obtain ⟨language, script, region, hlanguage, hscript, hregion, htext⟩ := h
  obtain ⟨language, rfl⟩ := exists_subtag (isLanguage_iff.2 hlanguage)
  obtain ⟨script, rfl⟩ := exists_optional fun s hs => isScript_iff.2 (hscript s hs)
  obtain ⟨region, rfl⟩ := exists_optional fun r hr => isRegion_iff.2 (hregion r hr)
  refine ⟨tag language script region, String.toList_injective ?_⟩
  rw [toList_text_tag, htext]

/-- **The texts that are locales** are `base` and the tags. -/
theorem exists_ofText?_iff (s : String) :
    (∃ l, ofText? s = .ok l) ↔ s = "base" ∨ IsTag s.toList := by
  constructor
  · rintro ⟨l, hl⟩
    obtain rfl := text_of_ofText?_eq_ok hl
    by_cases hbase : l = base
    · exact .inl (by rw [hbase]; rfl)
    · exact .inr (isTag_text hbase)
  · rintro (rfl | htag)
    · exact ⟨base, rfl⟩
    · obtain ⟨l, rfl⟩ := exists_text_of_isTag htag
      exact ⟨l, ofText?_text l⟩

/-! ### Parts found by their form -/

/-- The part of a written locale that has a form, behind the first part. -/
def laterPart? (form : List Char → Bool) (s : String) : Option String :=
  (((Text.fields '-' s.toList).drop 1).find? form).map String.ofList

theorem laterPart?_text (form : List Char → Bool) (l : Locale) :
    laterPart? form l.text =
      (l.script?.toList ++ l.region?.toList).find? fun part => form part.toList := by
  cases l with
  | base => rfl
  | tag language script region =>
    rw [laterPart?, fields_text Locale.noConfusion]
    show ((((tag language script region).script?.toList ++
      (tag language script region).region?.toList).map String.toList).find? form).map _ = _
    rw [List.find?_map, Option.map_map]
    simp [Function.comp_def]

/-- The script is the part that has the form of one. -/
theorem script?_eq_laterPart? (l : Locale) : l.script? = laterPart? isScript l.text := by
  rw [laterPart?_text]
  cases l with
  | base => rfl
  | tag language script region =>
    cases script with
    | some s => simp [script?, s.property]
    | none =>
      cases region with
      | none => rfl
      | some r =>
        have hform : isScript r.val.toList = false := by
          rw [← Bool.not_eq_true, isScript_iff]
          exact fun h => not_regionForm_of_scriptForm h (isRegion_iff.1 r.property)
        simp [script?, region?, hform]

/-- The region is the part that has the form of one. -/
theorem region?_eq_laterPart? (l : Locale) : l.region? = laterPart? isRegion l.text := by
  rw [laterPart?_text]
  cases l with
  | base => rfl
  | tag language script region =>
    have hscript (s : Subtag isScript) : isRegion s.val.toList = false := by
      rw [← Bool.not_eq_true, isRegion_iff]
      exact not_regionForm_of_scriptForm (isScript_iff.1 s.property)
    have hregion (r : Subtag isRegion) : isRegion r.val.toList = true := r.property
    cases script <;> cases region <;> simp [script?, region?, hscript, hregion]

/-- The language is the first part. -/
theorem language?_eq_head? {l : Locale} (h : l ≠ base) :
    l.language? = (Text.fields '-' l.text.toList).head?.map String.ofList := by
  rw [fields_text h]
  cases l with
  | base => exact absurd rfl h
  | tag language script region => simp [parts, language?]

/-- The parts with hyphens between them are the written form. -/
theorem intercalate_parts {l : Locale} (h : l ≠ base) : "-".intercalate l.parts = l.text := by
  cases l with
  | base => exact absurd rfl h
  | tag language script region =>
    apply String.toList_injective
    rw [toList_text_tag]
    cases script <;> cases region <;>
      simp [parts, language?, script?, region?, String.intercalate_cons_cons]

/-! ### What names tell -/

/-- **A text that is a locale tells its parts, and so do the names that are made of it.** The texts
that are locales are `base` and the tags `language[-Script][-REGION]`. The parts of a tag, the later
ones found by their form, give it back. Locales with one directory of tables, or with one suffix of
bundles, are one text. -/
theorem decomposes (s : String) :
    ((∃ l, ofText? s = .ok l) ↔ s = "base" ∨ IsTag s.toList) ∧
    (∀ l, ofText? s = .ok l → s ≠ "base" →
      l.language? = (Text.fields '-' s.toList).head?.map String.ofList ∧
      l.script? = laterPart? isScript s ∧ l.region? = laterPart? isRegion s ∧
      "-".intercalate (l.language?.toList ++ l.script?.toList ++ l.region?.toList) = s) ∧
    ∀ s' l l', ofText? s = .ok l → ofText? s' = .ok l' →
      (Native.Android.valuesDirectory l = Native.Android.valuesDirectory l' → s = s') ∧
      (Native.Jvm.localeSuffix l = Native.Jvm.localeSuffix l' → s = s') := by
  refine ⟨exists_ofText?_iff s, fun l hl hbase => ?_, fun s' l l' hl hl' => ?_⟩
  · obtain rfl := text_of_ofText?_eq_ok hl
    have hne : l ≠ base := by
      rintro rfl
      exact hbase rfl
    exact ⟨language?_eq_head? hne, script?_eq_laterPart? l, region?_eq_laterPart? l,
      intercalate_parts hne⟩
  · obtain rfl := text_of_ofText?_eq_ok hl
    obtain rfl := text_of_ofText?_eq_ok hl'
    exact ⟨fun h => congrArg text (Native.Android.valuesDirectory_injective h),
      fun h => congrArg text (Native.Jvm.localeSuffix_injective h)⟩

/-- A tag with all its parts: the script is found by its form, and the parts give the tag back. -/
theorem decomposes_taipei :
    ∃ l, ofText? "zh-Hant-TW" = .ok l ∧ "zh-Hant-TW" ≠ "base" ∧
      l.script? = some "Hant" ∧ l.region? = some "TW" ∧
      "-".intercalate (l.language?.toList ++ l.script?.toList ++ l.region?.toList) =
        "zh-Hant-TW" := by
  have hl : ofText? "zh-Hant-TW" = .ok (tag ⟨"zh", by decide⟩ (some ⟨"Hant", by decide⟩)
      (some ⟨"TW", by decide⟩)) := by rfl
  obtain ⟨-, hscript, hregion, hparts⟩ := (decomposes _).2.1 _ hl (by decide)
  refine ⟨_, hl, by decide, ?_, ?_, hparts⟩
  · rw [hscript]
    decide
  · rw [hregion]
    decide

end ResourceCompiler.Locale
