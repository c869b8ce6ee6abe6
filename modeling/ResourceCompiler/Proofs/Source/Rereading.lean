import ResourceCompiler.Pass.Run
import ResourceCompiler.Proofs.FileTree.Ways
import ResourceCompiler.Proofs.Naming
import ResourceCompiler.Proofs.Sequence

/-!
# Files read again

What is built from files that can all be read is a function of their texts: it is the same in any
tree where they have the same texts. Files of a kind are known by the ends of their names, which no
file has that an artifact is completed in.

* `Source.build_again`, `Configuration.buildAll_again`: the same built from the same texts.
* `Source.exists_down_of_selects`: the name at the end of the path of a file of a kind.
-/

namespace ResourceCompiler

namespace Source

variable {Q V : Type} [DecidableEq Q] {t u : FileTree} {files : List Path}

/-- Whether a path that leads to a text in a tree leads to the same text in another one. -/
def SameText (t u : FileTree) (p : Path) : Prop :=
  ∀ text, t.readText p = .ok text → u.readText p = .ok text

/-! ### Building -/

theorem ok_of_mem_gatherFrom {twice : Declaration Q V → Path → SourceError} {m n : Declared Q V}
    {ds : List (Except SourceError (Declaration Q V))} (h : gatherFrom twice m ds = .ok n) :
    ∀ d ∈ ds, ∃ x, d = .ok x := by
  induction ds generalizing m with
  | nil => exact List.forall_mem_nil _
  | cons d ds ih =>
    cases d with
    | error e => cases h
    | ok d =>
      rw [gatherFrom] at h
      split at h
      · cases h
      · exact List.forall_mem_cons.2 ⟨⟨d, rfl⟩, ih h⟩

/-- Declarations are only gathered if none of them is a fault. -/
theorem ok_of_mem_gather {sourceSet : SourceSetName} {kind : Kind} {qualifierText : Q → String}
    {ds : List (Except SourceError (Declaration Q V))} {m : Declared Q V}
    (h : gather sourceSet kind qualifierText ds = .ok m) : ∀ d ∈ ds, ∃ x, d = .ok x :=
  ok_of_mem_gatherFrom h

theorem Place.resources_again {p : Place} {es : List Xml.Element} (h : p.resources t = .ok es)
    (hsame : SameText t u p.path) : p.resources u = .ok es := by
  cases htext : t.readText p.path with
  | error e =>
    rw [Place.resources, htext] at h
    cases h
  | ok text =>
    have hagain : p.resources u = p.resources t := by
      rw [Place.resources, Place.resources, hsame text htext, htext]
    rw [hagain, h]

omit [DecidableEq Q] in
/-- A document without faults declares the same when it is read again. -/
theorem Place.declarations_again {p : Place} {q : Q}
    {value : Xml.Element → Except Fault (Key × V)} (hsame : SameText t u p.path)
    (hok : ∀ d ∈ p.declarations q value (p.resources t), ∃ x, d = .ok x) :
    p.declarations q value (p.resources u) = p.declarations q value (p.resources t) := by
  cases hes : p.resources t with
  | error e =>
    rw [hes] at hok
    obtain ⟨x, hx⟩ := hok (.error e) (List.mem_singleton_self _)
    cases hx
  | ok es => rw [p.resources_again hes hsame]

theorem textDeclarations_again {kind : Kind} {value : Xml.Element → Except Fault (Key × V)}
    {sourceSet : SourceSetName} {root : Path} (hsame : ∀ p ∈ files, SameText t u p)
    (hok : ∀ d ∈ textDeclarations kind value sourceSet root files t, ∃ x, d = .ok x) :
    textDeclarations kind value sourceSet root files u =
      textDeclarations kind value sourceSet root files t := by
  refine List.flatMap_congr fun path hpath => ?_
  have hfile := fun d hd => hok d (List.mem_flatMap.2 ⟨path, hpath, hd⟩)
  dsimp only at hfile ⊢
  split
  · rfl
  · rename_i locale hlocale
    rw [hlocale] at hfile
    exact Place.declarations_again (hsame path hpath) hfile

theorem colorDeclarations_again {sourceSet : SourceSetName}
    (hsame : ∀ p ∈ files, SameText t u p)
    (hok : ∀ d ∈ colorDeclarations sourceSet files t, ∃ x, d = .ok x) :
    colorDeclarations sourceSet files u = colorDeclarations sourceSet files t := by
  refine List.flatMap_congr fun path hpath => ?_
  exact Place.declarations_again (hsame path hpath) fun d hd =>
    hok d (List.mem_flatMap.2 ⟨path, hpath, hd⟩)

/-- **The same entries are built from the same texts.** -/
theorem build_again {strict : Bool} {sourceSet : SourceSetName} {root : Path} {k : Kind}
    {es : List (Entry k)} (h : build strict sourceSet root files t k = .ok es)
    (hsame : ∀ p ∈ files, SameText t u p) : build strict sourceSet root files u k = .ok es := by
  cases k with
  | strings =>
    obtain ⟨m, hm, -⟩ := bind_eq_ok h
    rw [build, textDeclarations_again hsame (ok_of_mem_gather hm)]
    exact h
  | plurals =>
    obtain ⟨m, hm, -⟩ := bind_eq_ok h
    rw [build, textDeclarations_again hsame (ok_of_mem_gather hm)]
    exact h
  | images => exact h
  | colors =>
    obtain ⟨m, hm, -⟩ := bind_eq_ok h
    rw [build, colorDeclarations_again hsame (ok_of_mem_gather hm)]
    exact h

end Source

open Source

theorem Configuration.buildAll_again {strict : Bool} {collected : List Collected} {t u : FileTree}
    {built : (k : Kind) → List (Fragment k)} (h : buildAll strict collected t = .ok built)
    (hsame : ∀ s ∈ collected, ∀ k, ∀ p ∈ s.files k, SameText t u p) :
    buildAll strict collected u = .ok built := by
  rw [buildAll, Kind.traverse_eq_ok_iff] at h ⊢
  intro k
  refine mapM_eq_ok_iff.2 (forall₂_imp_of_mem (mapM_eq_ok_iff.1 (h k)) fun s hs f _ hf => ?_)
  obtain ⟨es, hes, hf⟩ := bind_eq_ok hf
  rw [build_again hes (hsame s hs k)]
  exact hf

/-! ### Names of files -/

namespace Path

/-- A path ends with a name if its text ends with a character that is neither a slash nor a dot, and
the name ends with that character, too. -/
theorem exists_down_of_getLast? {p : Path} {c : Char} (h : p.text.toList.getLast? = some c)
    (hslash : c ≠ '/') (hdot : c ≠ '.') :
    ∃ as name, p.strides = as ++ [.down name] ∧ name.toList.getLast? = some c := by
  obtain ⟨init, last, hsegments⟩ : ∃ init last, p.segments = init ++ [last] :=
    ⟨_, _, (List.dropLast_concat_getLast (Text.fields_ne_nil '/' p.text.toList)).symm⟩
  have hjoined : Text.joined '/' (init ++ [last]) = p.text.toList := by
    rw [← hsegments, segments, Text.joined_fields]
  have hlast : last.getLast? = some c := by
    rw [← hjoined] at h
    by_cases hinit : init = []
    · rw [hinit] at h
      exact h
    · rw [Text.joined_concat '/' hinit] at h
      cases last with
      | nil =>
        rw [List.getLast?_concat] at h
        exact absurd (Option.some.inj h).symm hslash
      | cons x xs =>
        rw [List.getLast?_append_of_ne_nil _ (List.cons_ne_nil _ _),
          List.getLast?_cons_cons] at h
        exact h
  have hends (x : List Char) (hx : x.getLast? = some '.' ∨ x = []) : last ≠ x := by
    rintro rfl
    rcases hx with hx | rfl
    · exact hdot (Option.some.inj (hlast.symm.trans hx))
    · cases hlast
  have hidle : isIdle last = false := by
    rw [isIdle, Bool.or_eq_false_iff, beq_eq_false_iff_ne, beq_eq_false_iff_ne]
    exact ⟨hends [] (.inr rfl), hends ['.'] (.inl rfl)⟩
  have hstep : Step.ofSegment last = .down (String.ofList last) := by
    rw [Step.ofSegment, if_neg (not_or.2 ⟨hends [] (.inr rfl), hends ['.'] (.inl rfl)⟩),
      if_neg (hends ['.', '.'] (.inl rfl))]
  refine ⟨stridesOf init, String.ofList last, ?_, by rw [String.toList_ofList, hlast]⟩
  rw [strides, hsegments, stridesOf_append, stridesOf_singleton hidle, hstep]

theorem getLast?_intercalate {c : Char} {l : List String} {name : String}
    (hl : l.getLast? = some name) (hname : name.toList.getLast? = some c) :
    ("/".intercalate l).toList.getLast? = some c := by
  obtain ⟨names, rfl⟩ := List.getLast?_eq_some_iff.1 hl
  have hne : name.toList ≠ [] := by
    intro hempty
    rw [hempty] at hname
    cases hname
  have hsuffix : ∃ cs, ("/".intercalate (names ++ [name])).toList = cs ++ name.toList := by
    clear hl
    induction names with
    | nil => exact ⟨[], by rw [List.nil_append, String.intercalate_singleton, List.nil_append]⟩
    | cons x xs ih =>
      obtain ⟨cs, hcs⟩ := ih
      obtain ⟨y, ys, hys⟩ := List.exists_cons_of_ne_nil (List.concat_ne_nil name xs)
      refine ⟨(x ++ "/").toList ++ cs, ?_⟩
      rw [List.cons_append, hys, String.intercalate_cons_cons, String.toList_append, ← hys, hcs,
        List.append_assoc]
  obtain ⟨cs, hcs⟩ := hsuffix
  rw [hcs, List.getLast?_append_of_ne_nil _ hne, hname]

/-- The text of a path behind another one ends the text of both. -/
theorem getLast?_join (p : Path) {q : Path} {c : Char} (h : q.text.toList.getLast? = some c) :
    (p.join q).text.toList.getLast? = some c := by
  have hne : q.text.toList ≠ [] := by
    intro hempty
    rw [hempty] at h
    cases h
  rw [join]
  split
  · exact h
  · split
    · rw [String.toList_append, List.getLast?_append_of_ne_nil _ hne, h]
    · rw [String.toList_append, List.getLast?_append_of_ne_nil _ hne, h]

end Path

namespace Source

/-- What the name of a file of a kind starts and ends with: an image is known by its end, and a
document also by the word for its kind. -/
theorem ends_of_selects {k : Kind} {parts : List (List Char)} (h : selects k parts = true) :
    ∃ name, parts.getLast? = some name ∧
      (k = .images ∧ name.getLast? = some 'g' ∨
        k ≠ .images ∧ name.getLast? = some 'l' ∧ name.head? = k.text.toList.head?) := by
  rw [selects] at h
  split at h
  · cases h
  · rename_i name hname
    refine ⟨name, hname, ?_⟩
    have hdocument {word : List Char} (hne : word ≠ []) (h : isDocumentName word name = true) :
        name.getLast? = some 'l' ∧ name.head? = word.head? := by
      rw [isDocumentName, Bool.and_eq_true, List.isPrefixOf_iff_prefix,
        List.isSuffixOf_iff_suffix] at h
      obtain ⟨⟨rest, rfl⟩, hsuffix⟩ := h
      rw [List.drop_left] at hsuffix
      obtain ⟨before, rfl⟩ := hsuffix
      refine ⟨?_, List.head?_append_of_ne_nil word hne⟩
      rw [← List.append_assoc, List.getLast?_append_of_ne_nil _ (by decide)]
      decide
    cases k with
    | images =>
      rw [Bool.and_eq_true, List.any_eq_true] at h
      obtain ⟨e, he, hsuffix⟩ := h.2
      have hlast : ∀ e ∈ imageEndings, e ≠ [] ∧ e.getLast? = some 'g' := by decide
      obtain ⟨before, rfl⟩ := List.isSuffixOf_iff_suffix.1 hsuffix
      refine .inl ⟨rfl, ?_⟩
      rw [List.getLast?_append_of_ne_nil _ (hlast e he).1, (hlast e he).2]
    | strings => exact .inr ⟨Kind.noConfusion, hdocument (by decide) h⟩
    | plurals => exact .inr ⟨Kind.noConfusion, hdocument (by decide) h⟩
    | colors => exact .inr ⟨Kind.noConfusion, hdocument (by decide) h⟩

/-- The name of a file of a kind ends with a letter of its ending. -/
theorem getLast?_of_selects {k : Kind} {parts : List (List Char)} (h : selects k parts = true) :
    ∃ name c, parts.getLast? = some name ∧ name.getLast? = some c ∧ (c = 'l' ∨ c = 'g') := by
  obtain ⟨name, hname, ⟨-, hlast⟩ | ⟨-, hlast, -⟩⟩ := ends_of_selects h
  · exact ⟨name, 'g', hname, hlast, .inr rfl⟩
  · exact ⟨name, 'l', hname, hlast, .inl rfl⟩

/-- The path of a file of a kind ends with a name, and this with a letter of its ending. -/
theorem exists_down_of_selects (s : SourceSet) {k : Kind} {l : Location}
    (h : selects k (l.map String.toList) = true) :
    ∃ as name c, (pathBelow s l).strides = as ++ [.down name] ∧
      name.toList.getLast? = some c ∧ (c = 'l' ∨ c = 'g') := by
  obtain ⟨cs, c, hcs, hc, hletter⟩ := getLast?_of_selects h
  rw [List.getLast?_map, Option.map_eq_some_iff] at hcs
  obtain ⟨name, hname, rfl⟩ := hcs
  have htext := Path.getLast?_join s.root (q := ⟨"/".intercalate l⟩)
    (Path.getLast?_intercalate hname hc)
  have hplain : c ≠ '/' ∧ c ≠ '.' := by
    rcases hletter with rfl | rfl
    · decide
    · decide
  obtain ⟨as, last, hstrides, hlast⟩ := Path.exists_down_of_getLast? htext hplain.1 hplain.2
  exact ⟨as, last, c, hstrides, hlast, hletter⟩

end Source

end ResourceCompiler
