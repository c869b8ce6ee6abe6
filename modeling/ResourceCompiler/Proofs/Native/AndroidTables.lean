import ResourceCompiler.Proofs.Characters
import ResourceCompiler.Proofs.Native.AndroidTexts
import ResourceCompiler.Proofs.Xml.Spelling
import ResourceCompiler.Source.LocalizedText

/-!
# Tables read back

A table is a document whose root has the elements that its lines were written for, in order. A line of
a table of strings is an element that describes the key and the text that it was written for; the
lines of a plural are an element with one element for each form.

* `tablePreamble`, `read_table_of_lines`: the elements of a table.
* `stringElement`, `read_table`: the elements of a table of strings.
* `stringOf_stringElement`: the key and the text of an element.
* `IsPluralTable`, `read_pluralTable`: the elements of a table of plurals.
-/

namespace ResourceCompiler.Native.Android

open Xml

/-! ### Tables -/

/-- The declaration in front of a table. -/
def declaration : String := "xml version=\"1.0\" encoding=\"utf-8\""

/-- The words of the remark in front of a root, before the package and behind it. -/
def generated : String := " Generated by polyres for "

def unedited : String := ".R, do not edit. "

/-- The remark in front of the root of a table. -/
def remark (package : PackageName) : List Char :=
  generated.toList ++ package.text.toList ++ unedited.toList

/-- What stands in front of the root of a table. -/
def tablePreamble (package : PackageName) : List Char :=
  '<' :: ('?' :: (declaration.toList ++ ['?', '>']) ++ '\n' ::
    '<' :: ('!' :: '-' :: '-' :: (remark package ++ ['-', '-', '>']) ++ ['\n']))

theorem preamble_tablePreamble (package : PackageName) : Preamble (tablePreamble package) := by
  have hdeclaration : '?' ∉ declaration.toList := by simp [declaration]
  have hpackage : '-' ∉ package.text.toList := fun hmem =>
    (package.of_mem hmem).elim (by decide) (by decide)
  have hremark : '-' ∉ remark package := by simp [remark, generated, unedited, hpackage]
  exact .instruction (by simp [declaration])
    (fun hin => hdeclaration (hin.subset List.mem_cons_self))
    (.comment (fun hin => hremark (hin.subset List.mem_cons_self)) .nil)

theorem toList_table (package : PackageName) (body : String) : (table package body).toList =
    tablePreamble package ++ (tagged "resources" [] ('\n' :: (body.toList ++ [])) ++ ['\n']) := by
  delta table
  simp [tablePreamble, remark, declaration, generated, unedited, tagged]

/-- **A table reads as the elements of its lines.** -/
theorem read_table_of_lines (package : PackageName) {body : String} {es : List Element}
    (h : Lines body.toList es) : ∃ root, Xml.read (table package body) = .ok root ∧
      root.name = "resources" ∧ root.elements = es ∧ Blank root.children := by
  have hname : IsTagName "resources".toList := isTagName_of_all (by decide +kernel)
  obtain ⟨root, hroot, hrootName, -, helements, hblank⟩ :=
    exists_stands_lines hname WellNamed.nil h (List.forall_mem_nil (· = ' '))
  exact ⟨root, read_laidOut (preamble_tablePreamble package) hroot (toList_table package body),
    hrootName, helements, hblank⟩

/-! ### Values -/

theorem isNameChar_of_mem_key (key : Key) : ∀ x ∈ key.text.toList, isNameChar x = true :=
  fun _ hx => isNameChar_of_isIdentifierChar (key.isIdentifierChar_of_mem hx)

theorem isNameChar_of_mem_quantity (q : Quantity) :
    ∀ x ∈ q.text.toList, isNameChar x = true := by
  cases q <;> exact List.all_eq_true.1 (by decide +kernel)

theorem wellNamed_name (value : String) : WellNamed [("name", value)] :=
  .singleton (isTagName_of_all (by decide +kernel)) value

/-! ### Strings -/

/-- The element of a string. -/
def stringElement (e : Key × String) : Element :=
  ⟨"string", [("name", e.1.text)],
    if escapeText e.2.toList = [] then [] else [.text (String.ofList (marked e.2.toList))]⟩

theorem lines_stringLine (e : Key × String) : Lines (stringLine e).toList [stringElement e] := by
  have hname : IsTagName "string".toList := isTagName_of_all (by decide +kernel)
  have hline : (stringLine e).toList = indent 1 ++ (tagged "string" [("name", e.1.text)]
      (escapeText e.2.toList) ++ ['\n']) := by
    rw [tagged_singleton "string" "name" (isNameChar_of_mem_key e.1)]
    delta stringLine
    simp [escape, indent]
  rw [hline]
  exact .singleton (eq_of_mem_indent 1) (stands_textElement hname (wellNamed_name e.1.text)
    (not_mem_escapeText e.2.toList) (unescape_escapeText e.2.toList))

/-- **A table reads as the elements of its strings.** -/
theorem read_table (package : PackageName) (items : List (Key × String)) :
    ∃ root, Xml.read (table package (String.join (items.map stringLine))) = .ok root ∧
      root.name = "resources" ∧ root.elements = items.map stringElement := by
  have hlines : Lines (String.join (items.map stringLine)).toList (items.map stringElement) := by
    rw [String.toList_join, List.flatMap_map, List.map_eq_flatMap]
    exact lines_flatMap fun e _ => lines_stringLine e
  obtain ⟨root, hread, hname, helements, -⟩ := read_table_of_lines package hlines
  exact ⟨root, hread, hname, helements⟩

/-! ### Declared strings -/

theorem text_stringElement (e : Key × String) :
    (stringElement e).text = String.ofList (marked e.2.toList) :=
  text_textElement "string" _ (unescape_escapeText e.2.toList)

/-- **An element of a table declares the string that it was written for**, unless strict line breaks
change its text. -/
theorem stringOf_stringElement {strict : Bool} {e : Key × String}
    (h : strict = true → '\r' ∉ e.2.toList) :
    Source.stringOf strict (stringElement e) = .ok e := by
  have hkey : Source.keyOf (stringElement e) = .ok e.1 := by
    have hname : (stringElement e).attribute? "name" = some e.1.text := rfl
    rw [Source.keyOf, hname]
    show (Key.ofText? e.1.text).mapError Source.Fault.invalid = .ok e.1
    rw [Key.ofText?_text]
    rfl
  have htext : Source.normalize strict (stringElement e).text = .ok e.2 := by
    rw [Source.normalize, text_stringElement, String.toList_ofList, resolveEscapes_marked h]
    exact congrArg Except.ok String.ofList_toList
  rw [Source.stringOf, hkey, htext]
  rfl

/-! ### Plurals -/

/-- Whether an element is a form of a plural, by the text that it stands for. -/
structure IsForm (e : Element) (form : Quantity × String) : Prop where
  name_eq : e.name = "item"
  attributes_eq : e.attributes = [("quantity", form.1.text)]
  elements_eq : e.elements = []
  text_eq : Source.normalize false e.text = .ok form.2

/-- Whether an element is a plural with exactly the given forms, in order. -/
structure IsPlural (e : Element) (item : Key × PluralForms) : Prop where
  name_eq : e.name = "plurals"
  attributes_eq : e.attributes = [("name", item.1.text)]
  forms_eq : List.Forall₂ IsForm e.elements item.2.entries
  blank : Blank e.children

/-- Whether the root of a table has exactly the given plurals, in order. -/
structure IsPluralTable (root : Element) (items : List (Key × PluralForms)) : Prop where
  name_eq : root.name = "resources"
  plurals_eq : List.Forall₂ IsPlural root.elements items
  blank : Blank root.children

theorem exists_lines_formLine (f : Quantity × String) :
    ∃ e, Lines (formLine f).toList [e] ∧ IsForm e f := by
  have hname : IsTagName "item".toList := isTagName_of_all (by decide +kernel)
  have hquantity : IsTagName "quantity".toList := isTagName_of_all (by decide +kernel)
  have hline : (formLine f).toList = indent 2 ++ (tagged "item" [("quantity", f.1.text)]
      (escapeText f.2.toList) ++ ['\n']) := by
    rw [tagged_singleton "item" "quantity" (isNameChar_of_mem_quantity f.1)]
    delta formLine
    simp [escape, indent]
  have hread := unescape_escapeText f.2.toList
  have hstands := stands_textElement hname (.singleton hquantity f.1.text)
    (not_mem_escapeText f.2.toList) hread
  rw [hline]
  refine ⟨_, .singleton (eq_of_mem_indent 2) hstands, rfl, rfl, elements_textElement _ _ _ _, ?_⟩
  rw [Source.normalize, text_textElement "item" _ hread, String.toList_ofList,
    resolveEscapes_marked fun h => absurd h Bool.false_ne_true]
  exact congrArg Except.ok String.ofList_toList

theorem exists_lines_pluralLines (item : Key × PluralForms) :
    ∃ e, Lines (pluralLines item).toList [e] ∧ IsPlural e item := by
  have hname : IsTagName "plurals".toList := isTagName_of_all (by decide +kernel)
  have hlines : (pluralLines item).toList = indent 1 ++ (tagged "plurals" [("name", item.1.text)]
      ('\n' :: ((item.2.entries.flatMap fun f => (formLine f).toList) ++ indent 1)) ++ ['\n']) := by
    rw [tagged_singleton "plurals" "name" (isNameChar_of_mem_key item.1)]
    delta pluralLines
    simp [indent, List.flatMap_map]
  obtain ⟨es, hes, hforms⟩ := exists_lines fun f (_ : f ∈ item.2.entries) => exists_lines_formLine f
  obtain ⟨e, he, heName, hattributes, helements, hblank⟩ :=
    exists_stands_lines hname (wellNamed_name item.1.text) hes (eq_of_mem_indent 1)
  rw [hlines]
  exact ⟨e, .singleton (eq_of_mem_indent 1) he, heName, hattributes, helements ▸ hforms, hblank⟩

/-- **A table reads as its plurals**, with the texts that these were written for. -/
theorem read_pluralTable (package : PackageName) (items : List (Key × PluralForms)) :
    ∃ root, Xml.read (table package (String.join (items.map pluralLines))) = .ok root ∧
      IsPluralTable root items := by
  obtain ⟨es, hes, hplurals⟩ :=
    exists_lines fun item (_ : item ∈ items) => exists_lines_pluralLines item
  have hlines : Lines (String.join (items.map pluralLines)).toList es := by
    rw [String.toList_join, List.flatMap_map]
    exact hes
  obtain ⟨root, hread, hname, helements, hblank⟩ := read_table_of_lines package hlines
  exact ⟨root, hread, hname, helements ▸ hplurals, hblank⟩

end ResourceCompiler.Native.Android
