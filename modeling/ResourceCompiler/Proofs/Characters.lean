import Mathlib.Data.List.Basic
import ResourceCompiler.Native.PropertyBundle
import ResourceCompiler.Resource.Locale
import ResourceCompiler.Resource.Name

/-!
# The characters of names

Keys, classes, packages and locales are made of few characters. Whatever has a meaning of its own in
a path or in a file of output is none of them.

* `Key.isIdentifierChar_of_mem`, `PackageName.of_mem`: identifiers.
* `Locale.of_mem_text`: letters and digits with hyphens between them.
* `Locale.parts_injective`: the parts of a tag tell the locale.
-/

namespace ResourceCompiler

namespace Text

theorem mem_joined {sep c : Char} {parts : List (List Char)} (h : c ∈ joined sep parts) :
    c = sep ∨ ∃ p ∈ parts, c ∈ p := by
  induction parts with
  | nil => cases h
  | cons part rest ih =>
    by_cases hrest : rest = []
    · subst hrest
      exact .inr ⟨part, List.mem_cons_self, h⟩
    · rw [joined_cons_of_ne_nil _ _ hrest] at h
      rcases List.mem_append.1 h with h | h
      · exact .inr ⟨part, List.mem_cons_self, h⟩
      · rcases List.mem_cons.1 h with h | h
        · exact .inl h
        · exact (ih h).imp id fun ⟨p, hp, hc⟩ => ⟨p, List.mem_cons_of_mem part hp, hc⟩

end Text

/-! ### Identifiers -/

theorem exists_cons_of_isIdentifier {cs : List Char} (h : isIdentifier cs = true) :
    ∃ c r, cs = c :: r ∧ isIdentifierChar c = true ∧ ∀ x ∈ r, isIdentifierChar x = true := by
  have hall := List.all_eq_true.1 (isIdentifier_all h)
  cases cs with
  | nil => cases h
  | cons c r =>
    exact ⟨c, r, rfl, hall c List.mem_cons_self, fun x hx => hall x (List.mem_cons_of_mem c hx)⟩

theorem Key.isIdentifierChar_of_mem (k : Key) {c : Char} (h : c ∈ k.text.toList) :
    isIdentifierChar c = true :=
  List.all_eq_true.1 (isIdentifier_all k.isIdentifier) c h

namespace PackageName

variable (p : PackageName)

theorem of_mem {c : Char} (h : c ∈ p.text.toList) : c = '.' ∨ isIdentifierChar c = true := by
  rw [← Text.joined_fields '.' p.text.toList] at h
  refine (Text.mem_joined h).imp id fun ⟨part, hpart, hc⟩ => ?_
  have hident := List.all_eq_true.1 p.wellFormed part hpart
  exact List.all_eq_true.1 (isIdentifier_all hident) c hc

theorem exists_cons : ∃ c r, p.text.toList = c :: r ∧ isIdentifierChar c = true := by
  have hall := List.all_eq_true.1 p.wellFormed
  cases hfields : Text.fields '.' p.text.toList with
  | nil => exact absurd hfields (Text.fields_ne_nil _ _)
  | cons part rest =>
    rw [hfields] at hall
    obtain ⟨c, r, rfl, hc, -⟩ := exists_cons_of_isIdentifier (hall part List.mem_cons_self)
    have hjoined := Text.joined_fields '.' p.text.toList
    rw [hfields] at hjoined
    cases rest with
    | nil => exact ⟨c, r, hjoined.symm, hc⟩
    | cons next rest => exact ⟨c, _, hjoined.symm, hc⟩

theorem isIdentifierChar_of_mem_flat {c : Char} (h : c ∈ p.flat.toList) :
    isIdentifierChar c = true := by
  rw [flat, String.toList_ofList, List.mem_filter] at h
  exact (p.of_mem h.1).resolve_left (of_decide_eq_true h.2)

theorem exists_cons_flat : ∃ c r, p.flat.toList = c :: r ∧ isIdentifierChar c = true := by
  obtain ⟨c, r, hp, hc⟩ := p.exists_cons
  have hdot : c ≠ '.' := by
    rintro rfl
    cases hc
  refine ⟨c, r.filter (· ≠ '.'), ?_, hc⟩
  rw [flat, String.toList_ofList, hp, List.filter_cons_of_pos (by simpa using hdot)]

end PackageName

/-! ### Locales -/

theorem isAlphanum_eq (c : Char) : c.isAlphanum = (c.isUpper || c.isLower || c.isDigit) := rfl

namespace Locale

theorem isAlphanum_of_isLanguage {cs : List Char} (h : isLanguage cs = true) {c : Char}
    (hc : c ∈ cs) : c.isAlphanum = true := by
  simp only [isLanguage, Bool.and_eq_true, List.all_eq_true] at h
  simp [isAlphanum_eq, h.2 c hc]

theorem isAlphanum_of_isScript {cs : List Char} (h : isScript cs = true) {c : Char}
    (hc : c ∈ cs) : c.isAlphanum = true := by
  unfold isScript at h
  split at h
  · simp only [Bool.and_eq_true] at h
    simp only [List.mem_cons, List.not_mem_nil, or_false] at hc
    rcases hc with rfl | rfl | rfl | rfl
    all_goals simp [isAlphanum_eq, h]
  · cases h

theorem isAlphanum_of_isRegion {cs : List Char} (h : isRegion cs = true) {c : Char}
    (hc : c ∈ cs) : c.isAlphanum = true := by
  simp only [isRegion, Bool.or_eq_true, Bool.and_eq_true, List.all_eq_true] at h
  rcases h with h | h
  · simp [isAlphanum_eq, h.2 c hc]
  · simp [isAlphanum_eq, h.2 c hc]

theorem isAlphanum_of_mem_parts {l : Locale} {p : String} (hp : p ∈ l.parts) {c : Char}
    (hc : c ∈ p.toList) : c.isAlphanum = true := by
  cases l with
  | base => simp [parts, language?, script?, region?] at hp
  | tag language script region =>
    simp only [parts, language?, script?, region?, List.mem_append, Option.mem_toList,
      Option.some.injEq, Option.map_eq_some_iff] at hp
    rcases hp with (rfl | ⟨s, -, rfl⟩) | ⟨r, -, rfl⟩
    · exact isAlphanum_of_isLanguage language.property hc
    · exact isAlphanum_of_isScript s.property hc
    · exact isAlphanum_of_isRegion r.property hc

theorem of_mem_text {l : Locale} {c : Char} (h : c ∈ l.text.toList) :
    c = '-' ∨ c.isAlphanum = true := by
  cases l with
  | base =>
    have hall : base.text.toList.all Char.isAlphanum = true := by decide
    exact .inr (List.all_eq_true.1 hall c h)
  | tag language script region =>
    have ht : (tag language script region).text.toList =
        Text.joined '-' ((tag language script region).parts.map String.toList) :=
      String.toList_ofList
    rw [ht] at h
    refine (Text.mem_joined h).imp id fun ⟨p, hp, hc⟩ => ?_
    obtain ⟨q, hq, rfl⟩ := List.mem_map.1 hp
    exact isAlphanum_of_mem_parts hq hc

theorem exists_cons_text (l : Locale) :
    ∃ c r, l.text.toList = c :: r ∧ c.isAlphanum = true := by
  cases l with
  | base => exact ⟨'b', ['a', 's', 'e'], rfl, by decide⟩
  | tag language script region =>
    obtain ⟨c, r, hcr⟩ : ∃ c r, language.val.toList = c :: r := by
      refine List.exists_cons_of_ne_nil fun hnil => ?_
      have hlanguage := language.property
      rw [hnil] at hlanguage
      cases hlanguage
    have hc : c.isAlphanum = true :=
      isAlphanum_of_isLanguage language.property (hcr ▸ List.mem_cons_self)
    have hfields := fields_text (l := tag language script region) Locale.noConfusion
    have hjoined := Text.joined_fields '-' (tag language script region).text.toList
    rw [hfields] at hjoined
    have hparts : (tag language script region).parts =
        language.val :: ((tag language script region).script?.toList
          ++ (tag language script region).region?.toList) := rfl
    rw [hparts, List.map_cons, hcr] at hjoined
    generalize List.map String.toList _ = rest at hjoined
    cases rest with
    | nil => exact ⟨c, r, hjoined.symm, hc⟩
    | cons next rest => exact ⟨c, _, hjoined.symm, hc⟩

/-- A locale is told by its parts. -/
theorem parts_injective {l l' : Locale} (h : l.parts = l'.parts) : l = l' := by
  by_cases hl : l = .base
  · by_contra hne
    subst hl
    exact parts_ne_nil (Ne.symm hne) h.symm
  · by_cases hl' : l' = .base
    · subst hl'
      exact absurd h (parts_ne_nil hl)
    · have hfields := ofFields?_parts hl
      rw [h, ofFields?_parts hl'] at hfields
      exact (Option.some.inj hfields).symm

end Locale

end ResourceCompiler
