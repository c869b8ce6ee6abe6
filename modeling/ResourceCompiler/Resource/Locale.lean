import ResourceCompiler.Resource.Invalid
import ResourceCompiler.Text.Fields

/-!
# Locales

A locale is the default one, called `base`, or a language with an optional script and an optional
region, written `language[-Script][-REGION]`.

## Main definitions

* `Locale`: the base locale or a tag of its parts.
* `Locale.parts`, `Locale.text`: the written form.
* `Locale.ofText?`: reads the written form.

## Main statements

* `Locale.ofText?_text`: the written form reads back.
* `Locale.text_of_ofText?_eq_ok`: a text that reads as a locale is its written form.
-/

namespace ResourceCompiler

/-- Two or three lower case letters of ASCII. -/
def isLanguage (cs : List Char) : Bool :=
  (cs.length == 2 || cs.length == 3) && cs.all Char.isLower

/-- An upper case letter and three lower case letters of ASCII. -/
def isScript : List Char → Bool
  | [a, b, c, d] => a.isUpper && b.isLower && c.isLower && d.isLower
  | _ => false

/-- Two upper case letters or three digits of ASCII. -/
def isRegion (cs : List Char) : Bool :=
  (cs.length == 2 && cs.all Char.isUpper) || (cs.length == 3 && cs.all Char.isDigit)

/-- A part of a tag: a text of a given form. -/
abbrev Subtag (form : List Char → Bool) := { s : String // form s.toList = true }

/-- The default locale or a language with its optional script and region. -/
inductive Locale where
  | base
  | tag (language : Subtag isLanguage) (script : Option (Subtag isScript))
      (region : Option (Subtag isRegion))
deriving DecidableEq

namespace Locale

/-- The text as a part of the given form, if it has that form. -/
def subtag? (form : List Char → Bool) (cs : List Char) : Option (Subtag form) :=
  if h : form (String.ofList cs).toList = true then some ⟨String.ofList cs, h⟩ else none

/-- The language, unless the locale is the base. -/
def language? : Locale → Option String
  | base => none
  | tag language _ _ => some language.val

/-- The script, if there is one. -/
def script? : Locale → Option String
  | base => none
  | tag _ script _ => script.map (·.val)

/-- The region, if there is one. -/
def region? : Locale → Option String
  | base => none
  | tag _ _ region => region.map (·.val)

/-- The parts of a tag; the base locale has none. -/
def parts (l : Locale) : List String :=
  l.language?.toList ++ l.script?.toList ++ l.region?.toList

/-- The written form. -/
def text : Locale → String
  | base => "base"
  | l => String.ofList (Text.joined '-' (l.parts.map String.toList))

instance : ToString Locale := ⟨text⟩

/-- The locale that the fields of a tag describe. -/
def ofFields? : List (List Char) → Option Locale
  | [l] => (subtag? isLanguage l).map fun l => tag l none none
  | [l, x] =>
    (subtag? isLanguage l).bind fun l =>
      match subtag? isScript x with
      | some s => some (tag l (some s) none)
      | none => (subtag? isRegion x).map fun r => tag l none (some r)
  | [l, s, r] =>
    (subtag? isLanguage l).bind fun l =>
      (subtag? isScript s).bind fun s =>
        (subtag? isRegion r).map fun r => tag l (some s) (some r)
  | _ => none

/-- Reads a locale. -/
def ofText? (s : String) : Except InvalidValue Locale :=
  if s = "base" then .ok base
  else match ofFields? (Text.fields '-' s.toList) with
    | some l => .ok l
    | none => .error (.locale s)

/-! ### Reading the written form -/

theorem subtag?_toList {form : List Char → Bool} (t : Subtag form) :
    subtag? form t.val.toList = some t := by
  simp [subtag?, t.property]

theorem val_of_subtag?_eq_some {form : List Char → Bool} {cs : List Char} {t : Subtag form}
    (h : subtag? form cs = some t) : t.val.toList = cs := by
  unfold subtag? at h
  split at h
  · cases h; simp
  · cases h

theorem not_mem_of_isLanguage {cs : List Char} (h : isLanguage cs = true) : '-' ∉ cs := by
  simp only [isLanguage, Bool.and_eq_true, List.all_eq_true] at h
  exact fun hm => absurd (h.2 _ hm) (by decide)

theorem not_mem_of_isScript {cs : List Char} (h : isScript cs = true) : '-' ∉ cs := by
  unfold isScript at h
  split at h
  · simp only [Bool.and_eq_true] at h
    intro hm
    simp only [List.mem_cons, List.not_mem_nil, or_false] at hm
    rcases hm with e | e | e | e <;> subst e <;> revert h <;> simp
  · cases h

theorem not_mem_of_isRegion {cs : List Char} (h : isRegion cs = true) : '-' ∉ cs := by
  simp only [isRegion, Bool.or_eq_true, Bool.and_eq_true, List.all_eq_true] at h
  exact fun hm => h.elim (fun h => absurd (h.2 _ hm) (by decide))
    fun h => absurd (h.2 _ hm) (by decide)

/-- A script is no region, since they differ in length. -/
theorem subtag?_isScript_of_isRegion {cs : List Char} (h : isRegion cs = true) :
    subtag? isScript cs = none := by
  unfold subtag?
  split
  · rename_i hs
    rw [String.toList_ofList] at hs
    unfold isScript at hs
    split at hs
    · simp [isRegion] at h
    · cases hs
  · rfl

theorem ofFields?_parts {l : Locale} (h : l ≠ base) :
    ofFields? (l.parts.map String.toList) = some l := by
  cases l with
  | base => exact absurd rfl h
  | tag language script region =>
    cases script with
    | none =>
      cases region with
      | none => simp [parts, language?, script?, region?, ofFields?, subtag?_toList]
      | some r =>
        simp [parts, language?, script?, region?, ofFields?, subtag?_toList,
          subtag?_isScript_of_isRegion r.property]
    | some s =>
      cases region with
      | none => simp [parts, language?, script?, region?, ofFields?, subtag?_toList]
      | some r => simp [parts, language?, script?, region?, ofFields?, subtag?_toList]

theorem parts_ne_nil {l : Locale} (h : l ≠ base) : l.parts ≠ [] := by
  cases l with
  | base => exact absurd rfl h
  | tag => simp [parts, language?]

theorem not_mem_of_mem_parts {l : Locale} {p : String} (h : p ∈ l.parts) : '-' ∉ p.toList := by
  cases l with
  | base => simp [parts, language?, script?, region?] at h
  | tag language script region =>
    simp only [parts, language?, script?, region?, List.mem_append, Option.mem_toList,
      Option.some.injEq, Option.map_eq_some_iff] at h
    rcases h with (rfl | ⟨s, -, rfl⟩) | ⟨r, -, rfl⟩
    · exact not_mem_of_isLanguage language.property
    · exact not_mem_of_isScript s.property
    · exact not_mem_of_isRegion r.property

theorem fields_text {l : Locale} (h : l ≠ base) :
    Text.fields '-' l.text.toList = l.parts.map String.toList := by
  have ht : l.text.toList = Text.joined '-' (l.parts.map String.toList) := by
    cases l with
    | base => exact absurd rfl h
    | tag => simp [text]
  rw [ht, Text.fields_joined (by simpa using parts_ne_nil h)]
  intro p hp
  obtain ⟨q, hq, rfl⟩ := List.mem_map.1 hp
  exact not_mem_of_mem_parts hq

theorem text_ne_base {l : Locale} (h : l ≠ base) : l.text ≠ "base" := by
  intro he
  have hf := fields_text h
  rw [he] at hf
  have hb := ofFields?_parts h
  have hnone : ofFields? (Text.fields '-' "base".toList) = none := by decide
  rw [← hf, hnone] at hb
  cases hb

/-- The written form of a locale reads as that locale. -/
theorem ofText?_text (l : Locale) : ofText? l.text = .ok l := by
  by_cases h : l = base
  · subst h; rfl
  · rw [ofText?, if_neg (text_ne_base h), fields_text h, ofFields?_parts h]

/-- The fields that describe a locale are its parts. -/
theorem parts_of_ofFields?_eq_some {fs : List (List Char)} {l : Locale}
    (h : ofFields? fs = some l) : l.parts.map String.toList = fs ∧ l ≠ base := by
  unfold ofFields? at h
  split at h
  · simp only [Option.map_eq_some_iff] at h
    obtain ⟨a, ha, rfl⟩ := h
    simp [parts, language?, script?, region?, val_of_subtag?_eq_some ha]
  · simp only [Option.bind_eq_some_iff] at h
    obtain ⟨a, ha, h⟩ := h
    split at h
    · rename_i s hs
      cases h
      simp [parts, language?, script?, region?, val_of_subtag?_eq_some ha,
        val_of_subtag?_eq_some hs]
    · simp only [Option.map_eq_some_iff] at h
      obtain ⟨r, hr, rfl⟩ := h
      simp [parts, language?, script?, region?, val_of_subtag?_eq_some ha,
        val_of_subtag?_eq_some hr]
  · simp only [Option.bind_eq_some_iff, Option.map_eq_some_iff] at h
    obtain ⟨a, ha, s, hs, r, hr, rfl⟩ := h
    simp [parts, language?, script?, region?, val_of_subtag?_eq_some ha,
      val_of_subtag?_eq_some hs, val_of_subtag?_eq_some hr]
  · cases h

/-- A text that reads as a locale is the written form of that locale. -/
theorem text_of_ofText?_eq_ok {s : String} {l : Locale} (h : ofText? s = .ok l) : l.text = s := by
  unfold ofText? at h
  split at h
  · rename_i hs
    cases h; exact hs.symm
  · split at h
    · rename_i l' hf
      cases h
      obtain ⟨hp, hne⟩ := parts_of_ofFields?_eq_some hf
      apply String.toList_injective
      rw [← Text.joined_fields '-' s.toList, ← hp, ← fields_text hne, Text.joined_fields]
    · cases h

theorem text_injective {l m : Locale} (h : l.text = m.text) : l = m := by
  have hl := ofText?_text l
  rw [h, ofText?_text m] at hl
  exact (Except.ok.inj hl).symm

end Locale

end ResourceCompiler
