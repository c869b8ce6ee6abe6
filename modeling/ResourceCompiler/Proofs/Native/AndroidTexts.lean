import ResourceCompiler.Native.AndroidTable
import ResourceCompiler.Proofs.Xml.Scanning
import ResourceCompiler.Source.Escape

/-!
# Texts of Android read back

A text is written into a table in two layers: marks for characters that mean something in resource
text, and references for those that mean something in XML. Each layer reads back.

* `marked`: a text with its marks, as a reader of XML has it.
* `unescape_escapeText`: the layer of XML.
* `resolveEscapes_marked`: the layer of marks.
-/

namespace ResourceCompiler.Native.Android

/-- What a reader of XML has of a character of a text, which may be the first one. -/
def mark (first : Bool) (c : Char) : List Char :=
  if c = '\\' ∨ c = '\'' ∨ c = '"' then ['\\', c]
  else if c = '\n' then ['\\', 'n']
  else if c = '\t' then ['\\', 't']
  else if first ∧ (c = '@' ∨ c = '?') then ['\\', c]
  else [c]

/-- What a reader of XML has of a text. -/
def marked : List Char → List Char
  | [] => []
  | c :: rest => mark true c ++ rest.flatMap (mark false)

/-! ### The layer of XML -/

/-- Only references are added to marks. -/
theorem escapeChar_eq (first : Bool) (c : Char) :
    escapeChar first c =
      if c = '&' ∨ c = '<' ∨ c = '>' then Xml.escapeChar c else mark first c := by
  unfold escapeChar mark
  by_cases hmarkup : c = '&' ∨ c = '<' ∨ c = '>'
  · rw [if_pos hmarkup]
    rcases hmarkup with rfl | rfl | rfl
    all_goals
      rw [if_neg (by decide), if_neg (by decide), if_neg (by decide), if_neg (by simp),
        if_pos (by decide)]
  · rw [if_neg hmarkup, if_neg hmarkup]

theorem mark_of_markup {c : Char} (first : Bool) (h : c = '&' ∨ c = '<' ∨ c = '>') :
    mark first c = [c] := by
  unfold mark
  rcases h with rfl | rfl | rfl
  all_goals
    rw [if_neg (by decide), if_neg (by decide), if_neg (by decide), if_neg (by simp)]

theorem mem_mark {first : Bool} {c x : Char} (h : x ∈ mark first c) :
    x = c ∨ x = '\\' ∨ x = 'n' ∨ x = 't' := by
  unfold mark at h
  split at h
  · simp only [List.mem_cons, List.not_mem_nil, or_false] at h
    exact h.elim (fun h => .inr (.inl h)) .inl
  split at h
  · simp only [List.mem_cons, List.not_mem_nil, or_false] at h
    exact h.elim (fun h => .inr (.inl h)) fun h => .inr (.inr (.inl h))
  split at h
  · simp only [List.mem_cons, List.not_mem_nil, or_false] at h
    exact h.elim (fun h => .inr (.inl h)) fun h => .inr (.inr (.inr h))
  split at h
  · simp only [List.mem_cons, List.not_mem_nil, or_false] at h
    exact h.elim (fun h => .inr (.inl h)) .inl
  · exact .inl (List.mem_singleton.1 h)

theorem unescapeFrom_escapeChar (first : Bool) (c : Char) (rest : List Char) :
    Xml.unescapeFrom none (escapeChar first c ++ rest) =
      (Xml.unescapeFrom none rest).map (mark first c ++ ·) := by
  rw [escapeChar_eq]
  split
  · rename_i hmarkup
    rw [Xml.unescape_escapeChar, mark_of_markup first hmarkup]
    rfl
  · rename_i hmarkup
    refine Xml.unescapeFrom_append (fun hmem => ?_) rest
    rcases mem_mark hmem with h | h | h | h
    · exact hmarkup (.inl h.symm)
    · cases h
    · cases h
    · cases h

/-- **A written text is read from XML as the text with its marks.** -/
theorem unescape_escapeText (cs : List Char) : Xml.unescape (escapeText cs) = some (marked cs) := by
  have hrest (cs : List Char) :
      Xml.unescapeFrom none (cs.flatMap (escapeChar false)) = some (cs.flatMap (mark false)) := by
    induction cs with
    | nil => rfl
    | cons c cs ih => rw [List.flatMap_cons, unescapeFrom_escapeChar, ih]; rfl
  cases cs with
  | nil => rfl
  | cons c cs => rw [escapeText, Xml.unescape, unescapeFrom_escapeChar, hrest]; rfl

theorem not_mem_escapeChar (first : Bool) (c : Char) : '<' ∉ escapeChar first c := by
  rw [escapeChar_eq]
  split
  · rename_i hmarkup
    rcases hmarkup with rfl | rfl | rfl <;> decide
  · rename_i hmarkup
    intro hmem
    rcases mem_mark hmem with h | h | h | h
    · exact hmarkup (.inr (.inl h.symm))
    · cases h
    · cases h
    · cases h

/-- No markup begins inside of a written text. -/
theorem not_mem_escapeText (cs : List Char) : '<' ∉ escapeText cs := by
  cases cs with
  | nil => exact List.not_mem_nil
  | cons c cs =>
    rw [escapeText, List.mem_append, List.mem_flatMap, not_or]
    exact ⟨not_mem_escapeChar true c, fun ⟨d, _, hd⟩ => not_mem_escapeChar false d hd⟩

/-! ### The layer of marks -/

open Source

/-- A marked character reads as itself. Strict line breaks leave out a carriage return. -/
theorem resolveEscapes_mark {strict : Bool} {c : Char} (h : strict = true → c ≠ '\r')
    (first : Bool) (rest : List Char) :
    resolveEscapes strict (mark first c ++ rest) = (resolveEscapes strict rest).map (c :: ·) := by
  unfold mark
  split
  · rename_i hc
    refine resolveEscapes_escaped ?_ rest
    rcases hc with rfl | rfl | rfl <;> rfl
  split
  · rename_i hc
    subst hc
    exact resolveEscapes_escaped rfl rest
  split
  · rename_i hc
    subst hc
    exact resolveEscapes_escaped rfl rest
  split
  · rename_i hc
    refine resolveEscapes_escaped ?_ rest
    rcases hc.2 with rfl | rfl <;> rfl
  · rename_i hslash hfeed _ _
    have hplain : plainChar strict c = [c] := by
      rw [plainChar, if_neg fun hreturn => h hreturn.1 hreturn.2,
        if_neg fun hbreak => hfeed hbreak.2]
    rw [List.singleton_append, resolveEscapes_plain fun heq => hslash (.inl heq), hplain]
    rfl

/-- **A text with its marks stands for the text.** -/
theorem resolveEscapes_marked {strict : Bool} {cs : List Char} (h : strict = true → '\r' ∉ cs) :
    resolveEscapes strict (marked cs) = .ok cs := by
  have hrest (cs : List Char) (h : strict = true → '\r' ∉ cs) :
      resolveEscapes strict (cs.flatMap (mark false)) = .ok cs := by
    induction cs with
    | nil => rfl
    | cons c cs ih =>
      have hc (hstrict : strict = true) : c ≠ '\r' := fun heq =>
        h hstrict (heq ▸ List.mem_cons_self)
      rw [List.flatMap_cons, resolveEscapes_mark hc,
        ih fun hstrict hmem => h hstrict (List.mem_cons_of_mem c hmem)]
      rfl
  cases cs with
  | nil => rfl
  | cons c cs =>
    have hc (hstrict : strict = true) : c ≠ '\r' := fun heq => h hstrict (heq ▸ List.mem_cons_self)
    rw [marked, resolveEscapes_mark hc,
      hrest cs fun hstrict hmem => h hstrict (List.mem_cons_of_mem c hmem)]
    rfl

end ResourceCompiler.Native.Android
