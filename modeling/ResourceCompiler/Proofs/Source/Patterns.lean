import ResourceCompiler.Proofs.Independence
import ResourceCompiler.Source.Pattern

/-!
# What patterns match

The patterns of documents match by the last part of a path, in any directory. The patterns of images
match by the ending of the last part, below a first part `images`. This is how files are selected.

* `matches_append`, `matches_literals`: patterns put together.
* `matches_anywhere_iff`, `matches_below_iff`: the two ways to leave directories open.
* `fits_iff_selects`: patterns and the selection of files agree on every path.
* `fits_document_iff`, `fits_images_iff`, `eq_of_fits`: what the patterns of a kind match.
-/

namespace ResourceCompiler

namespace Text

variable {sep : Char} {cs name first : List Char}

/-- Whether a text ends with another one that begins it or has the separator in front. -/
def EndsWith (sep : Char) (cs name : List Char) : Prop :=
  cs = name ∨ ∃ front, cs = front ++ sep :: name

/-- The last field of a text is what stands behind its last separator. -/
theorem getLast?_fields_iff :
    (fields sep cs).getLast? = some name ↔ sep ∉ name ∧ EndsWith sep cs name := by
  have hlast (front : List Char) {after : List Char} (h : sep ∉ after) :
      (fields sep (front ++ sep :: after)).getLast? = some after := by
    rw [fields_append_sep_append, fields_of_not_mem h, List.getLast?_concat]
  constructor
  · intro h
    by_cases hmem : sep ∈ cs
    · obtain ⟨front, after, rfl, hafter⟩ := exists_last hmem
      rw [hlast front hafter] at h
      obtain rfl := Option.some.inj h
      exact ⟨hafter, .inr ⟨front, rfl⟩⟩
    · rw [fields_of_not_mem hmem, List.getLast?_singleton] at h
      obtain rfl := Option.some.inj h
      exact ⟨hmem, .inl rfl⟩
  · rintro ⟨hname, rfl | ⟨front, rfl⟩⟩
    · rw [fields_of_not_mem hname, List.getLast?_singleton]
    · exact hlast front hname

/-- The first field of a text with others behind it is what stands in front of a separator. -/
theorem head?_fields_iff : (fields sep cs).head? = some first ∧ 1 < (fields sep cs).length ↔
    sep ∉ first ∧ ∃ rest, cs = first ++ sep :: rest := by
  constructor
  · rintro ⟨hhead, hlength⟩
    by_cases hmem : sep ∈ cs
    · obtain ⟨front, rest, rfl, hfront⟩ := List.eq_append_cons_of_mem hmem
      rw [fields_append_sep hfront, List.head?_cons] at hhead
      obtain rfl := Option.some.inj hhead
      exact ⟨hfront, rest, rfl⟩
    · rw [fields_of_not_mem hmem] at hlength
      exact absurd hlength (Nat.lt_irrefl 1)
  · rintro ⟨hfirst, rest, rfl⟩
    rw [fields_append_sep hfirst, List.head?_cons, List.length_cons]
    exact ⟨rfl, Nat.succ_lt_succ (List.length_pos_iff.2 (fields_ne_nil sep rest))⟩

theorem getLast?_fields_append (h : sep ∉ first) (rest : List Char) :
    (fields sep (first ++ sep :: rest)).getLast? = (fields sep rest).getLast? := by
  rw [fields_append_sep h, ← List.singleton_append,
    List.getLast?_append_of_ne_nil _ (fields_ne_nil sep rest)]

end Text

namespace Source

/-! ### Patterns put together -/

variable {k : Kind} {ts us : List Token} {s w e : List Char}

theorem matches_append : Matches (ts ++ us) s ↔
    ∃ front back, s = front ++ back ∧ Matches ts front ∧ Matches us back := by
  induction ts generalizing s with
  | nil => exact ⟨fun h => ⟨[], s, rfl, rfl, h⟩, by rintro ⟨_, back, rfl, rfl, h⟩; exact h⟩
  | cons t ts ih =>
    constructor
    · rintro ⟨run, rest, rfl, hrun, hrest⟩
      obtain ⟨front, back, rfl, hfront, hback⟩ := ih.1 hrest
      exact ⟨run ++ front, back, (List.append_assoc ..).symm, ⟨run, front, rfl, hrun, hfront⟩, hback⟩
    · rintro ⟨_, back, rfl, ⟨run, front, rfl, hrun, hfront⟩, hback⟩
      exact ⟨run, front ++ back, List.append_assoc .., hrun, ih.2 ⟨front, back, rfl, hfront, hback⟩⟩

/-- Characters match as they stand. -/
theorem matches_literals : Matches (w.map .literal) s ↔ s = w := by
  induction w generalizing s with
  | nil => rfl
  | cons c w ih =>
    constructor
    · rintro ⟨_, rest, rfl, rfl, hrest⟩
      rw [ih.1 hrest]
      rfl
    · rintro rfl
      exact ⟨[c], w, rfl, rfl, ih.2 rfl⟩

/-- A star between characters matches any part of a name. -/
theorem matches_name_iff : Matches (w.map .literal ++ .part :: e.map .literal) s ↔
    ∃ middle, s = w ++ middle ++ e ∧ '/' ∉ middle := by
  rw [matches_append]
  constructor
  · rintro ⟨_, _, rfl, hw, middle, _, rfl, hmiddle, he⟩
    rw [matches_literals.1 hw, matches_literals.1 he]
    exact ⟨middle, (List.append_assoc ..).symm, hmiddle⟩
  · rintro ⟨middle, rfl, hmiddle⟩
    exact ⟨w, middle ++ e, List.append_assoc .., matches_literals.2 rfl, middle, e, rfl, hmiddle,
      matches_literals.2 rfl⟩

theorem matches_anywhere_cons :
    Matches (.anywhere :: ts) s ↔ ∃ name, Text.EndsWith '/' s name ∧ Matches ts name := by
  constructor
  · rintro ⟨run, name, rfl, hrun, hname⟩
    refine ⟨name, ?_, hname⟩
    rcases hrun with rfl | ⟨directories, rfl⟩
    · exact .inl rfl
    · exact .inr ⟨directories, List.append_assoc directories ['/'] name⟩
  · rintro ⟨name, rfl | ⟨directories, rfl⟩, hname⟩
    · exact ⟨[], s, rfl, .inl rfl, hname⟩
    · exact ⟨directories ++ ['/'], name, (List.append_assoc directories ['/'] name).symm,
        .inr ⟨directories, rfl⟩, hname⟩

theorem matches_below_cons : Matches (.below :: ts) s ↔
    ∃ rest name, s = '/' :: rest ∧ Text.EndsWith '/' rest name ∧ Matches ts name := by
  constructor
  · rintro ⟨run, name, rfl, hrun, hname⟩
    rcases hrun with rfl | ⟨directories, rfl⟩
    · exact ⟨name, name, rfl, .inl rfl, hname⟩
    · refine ⟨directories ++ '/' :: name, name, ?_, .inr ⟨directories, rfl⟩, hname⟩
      exact congrArg ('/' :: ·) (List.append_assoc directories ['/'] name)
  · rintro ⟨rest, name, rfl, rfl | ⟨directories, rfl⟩, hname⟩
    · exact ⟨['/'], rest, rfl, .inl rfl, hname⟩
    · refine ⟨'/' :: directories ++ ['/'], name, ?_, .inr ⟨directories, rfl⟩, hname⟩
      exact congrArg ('/' :: ·) (List.append_assoc directories ['/'] name).symm

/-- **A name in any directory is the last field of a path.** -/
theorem matches_anywhere_iff (hw : '/' ∉ w) (he : '/' ∉ e) :
    Matches (.anywhere :: (w.map .literal ++ .part :: e.map .literal)) s ↔
      ∃ middle, (Text.fields '/' s).getLast? = some (w ++ middle ++ e) := by
  rw [matches_anywhere_cons]
  constructor
  · rintro ⟨_, hends, hname⟩
    obtain ⟨middle, rfl, hmiddle⟩ := matches_name_iff.1 hname
    exact ⟨middle, Text.getLast?_fields_iff.2 ⟨by simp [hw, he, hmiddle], hends⟩⟩
  · rintro ⟨middle, hlast⟩
    obtain ⟨hslash, hends⟩ := Text.getLast?_fields_iff.1 hlast
    exact ⟨_, hends, matches_name_iff.2 ⟨middle, rfl, fun hmem => hslash (by simp [hmem])⟩⟩

/-- **A name below a directory is the last field of a path** whose first field is the directory. -/
theorem matches_below_iff (hw : '/' ∉ w) (he : '/' ∉ e) :
    Matches (w.map .literal ++ .below :: .part :: e.map .literal) s ↔
      ((Text.fields '/' s).head? = some w ∧ 1 < (Text.fields '/' s).length) ∧
        ∃ middle, (Text.fields '/' s).getLast? = some (middle ++ e) := by
  rw [matches_append, Text.head?_fields_iff]
  constructor
  · rintro ⟨front, back, rfl, hfront, hback⟩
    obtain rfl := matches_literals.1 hfront
    obtain ⟨rest, name, rfl, hends, hname⟩ := matches_below_cons.1 hback
    obtain ⟨middle, rfl, hmiddle⟩ := (matches_name_iff (w := [])).1 hname
    refine ⟨⟨hw, rest, rfl⟩, middle, ?_⟩
    rw [Text.getLast?_fields_append hw, Text.getLast?_fields_iff]
    exact ⟨by simp [he, hmiddle], hends⟩
  · rintro ⟨⟨-, rest, rfl⟩, middle, hlast⟩
    rw [Text.getLast?_fields_append hw, Text.getLast?_fields_iff] at hlast
    refine ⟨w, '/' :: rest, rfl, matches_literals.2 rfl, ?_⟩
    rw [matches_below_cons]
    refine ⟨rest, middle ++ e, rfl, hlast.2, (matches_name_iff (w := [])).2 ⟨middle, rfl, ?_⟩⟩
    exact fun hmem => hlast.1 (List.mem_append_left e hmem)

/-! ### The patterns of kinds -/

theorem fits_iff : Fits k s ↔ ∃ ts ∈ (patterns k).map fun p => tokens p.toList, Matches ts s := by
  rw [Fits]
  constructor
  · rintro ⟨p, hp, hmatches⟩
    exact ⟨_, List.mem_map_of_mem hp, hmatches⟩
  · rintro ⟨ts, hts, hmatches⟩
    obtain ⟨p, hp, rfl⟩ := List.mem_map.1 hts
    exact ⟨p, hp, hmatches⟩

/-- A document has the name of its kind, anything, and the ending of documents. -/
theorem tokens_document (hk : k ≠ .images) : ((patterns k).map fun p => tokens p.toList) =
    [.anywhere :: (k.text.toList.map .literal ++ .part :: ".xml".toList.map .literal)] := by
  cases k with
  | images => exact absurd rfl hk
  | strings => decide
  | plurals => decide
  | colors => decide

/-- An image is below its directory, and has one of the endings of images. -/
theorem tokens_images : ((patterns .images).map fun p => tokens p.toList) =
    imageEndings.map fun e =>
      "images".toList.map .literal ++ .below :: .part :: e.map .literal := by
  decide

/-- **The paths of documents**, for each kind of documents. -/
theorem fits_document_iff (hk : k ≠ .images) : Fits k s ↔
    ∃ middle, (Text.fields '/' s).getLast? = some (k.text.toList ++ middle ++ ".xml".toList) := by
  have hslash : '/' ∉ k.text.toList := by cases k <;> decide
  rw [fits_iff, tokens_document hk, ← matches_anywhere_iff hslash (by decide)]
  exact ⟨fun ⟨_, hts, h⟩ => List.mem_singleton.1 hts ▸ h, fun h => ⟨_, List.mem_singleton_self _, h⟩⟩

/-- **The paths of images.** -/
theorem fits_images_iff : Fits .images s ↔
    ((Text.fields '/' s).head? = some "images".toList ∧ 1 < (Text.fields '/' s).length) ∧
      ∃ e ∈ imageEndings, ∃ middle, (Text.fields '/' s).getLast? = some (middle ++ e) := by
  have hending (e : List Char) (he : e ∈ imageEndings) : '/' ∉ e := by
    have hall : ∀ e ∈ imageEndings, '/' ∉ e := by decide
    exact hall e he
  rw [fits_iff, tokens_images]
  constructor
  · rintro ⟨ts, hts, h⟩
    obtain ⟨e, he, rfl⟩ := List.mem_map.1 hts
    obtain ⟨hbelow, hname⟩ := (matches_below_iff (by decide) (hending e he)).1 h
    exact ⟨hbelow, e, he, hname⟩
  · rintro ⟨hbelow, e, he, hname⟩
    exact ⟨_, List.mem_map_of_mem he, (matches_below_iff (by decide) (hending e he)).2
      ⟨hbelow, hname⟩⟩

/-! ### Selected files -/

theorem isDocumentName_iff {word name : List Char} : isDocumentName word name = true ↔
    ∃ middle, name = word ++ middle ++ ".xml".toList := by
  rw [isDocumentName, Bool.and_eq_true, List.isPrefixOf_iff_prefix, List.isSuffixOf_iff_suffix]
  constructor
  · rintro ⟨⟨rest, rfl⟩, hending⟩
    rw [List.drop_left] at hending
    obtain ⟨middle, rfl⟩ := hending
    exact ⟨middle, (List.append_assoc ..).symm⟩
  · rintro ⟨middle, rfl⟩
    rw [List.append_assoc, List.drop_left]
    exact ⟨List.prefix_append _ _, List.suffix_append _ _⟩

/-- **Files are selected by the patterns of their kind.** -/
theorem fits_iff_selects : Fits k s ↔ selects k (Text.fields '/' s) = true := by
  obtain ⟨name, hname⟩ : ∃ name, (Text.fields '/' s).getLast? = some name :=
    ⟨_, List.getLast?_eq_some_getLast (Text.fields_ne_nil '/' s)⟩
  by_cases hk : k = .images
  · subst hk
    rw [fits_images_iff, selects, hname]
    simp only [Option.some.injEq, Bool.and_eq_true, beq_iff_eq, decide_eq_true_eq, List.any_eq_true,
      List.isSuffixOf_iff_suffix]
    refine and_congr_right fun _ => exists_congr fun e => and_congr_right fun _ => ?_
    exact exists_congr fun middle => eq_comm
  · have hselects : selects k (Text.fields '/' s) = isDocumentName k.text.toList name := by
      rw [selects, hname]
      cases k with
      | images => exact absurd rfl hk
      | strings => rfl
      | plurals => rfl
      | colors => rfl
    rw [fits_document_iff hk, hselects, isDocumentName_iff, hname]
    exact exists_congr fun middle => Option.some_inj

/-- **No path is matched by the patterns of two kinds.** -/
theorem eq_of_fits {j : Kind} (hj : Fits j s) (hk : Fits k s) : j = k :=
  eq_of_selects (fits_iff_selects.1 hj) (fits_iff_selects.1 hk) rfl

end Source

end ResourceCompiler
