import Mathlib.Data.List.Perm.Basic
import ResourceCompiler.Proofs.Source.Documents

/-!
# Strings as they are declared

Strings are built from files exactly if each file is the document of a locale, and no key has two
texts for one locale over all files. They then list what the files declare: the keys in the order of
their first declaration, and for each key its texts in the order of the files. Another order of the
files can only change the order of what is built.

* `IsString`, `DeclaresStrings`: the texts that a file declares, said without reading it in steps.
* `build_strings_eq_ok_iff`: when strings are built, what they are, and what the order of the files
  does to them.
-/

namespace ResourceCompiler.Source

open OrderedMap

/-! ### What a file declares -/

/-- Whether an element is a string of the given key and text. -/
structure IsString (strict : Bool) (e : Xml.Element) (key : Key) (text : String) : Prop where
  name_eq : e.name = "string"
  key_eq : e.attribute? "name" = some key.text
  text_eq : normalize strict e.text = .ok text

/-- Whether a file is a document of strings that declares exactly the given ones, in order. -/
def DeclaresStrings (strict : Bool) (root : Path) (t : FileTree) (path : Path)
    (ds : List (Declaration Locale String)) : Prop :=
  ∃ l text document, IsLocaleOf root path l ∧ t.readText path = .ok text ∧
    Xml.read text = .ok document ∧ document.name = "resources" ∧
    List.Forall₂ (fun e d => IsString strict e d.key d.value ∧ d.qualifier = l ∧ d.path = path)
      document.elements ds

theorem stringOf_eq_ok_iff {strict : Bool} {e : Xml.Element} {key : Key} {text : String} :
    stringOf strict e = .ok (key, text) ↔ IsString strict e key text := by
  constructor
  · intro h
    obtain ⟨⟨⟩, hname, h⟩ := bind_eq_ok h
    obtain ⟨key', hkey, h⟩ := bind_eq_ok h
    obtain ⟨text', htext, h⟩ := bind_eq_ok h
    obtain ⟨rfl, rfl⟩ := Prod.mk.inj (Except.ok.inj h)
    exact ⟨expectElement_eq_ok_iff.1 hname, keyOf_eq_ok_iff.1 hkey, mapError_eq_ok_iff.1 htext⟩
  · rintro ⟨hname, hkey, htext⟩
    rw [stringOf, expectElement_eq_ok_iff.2 hname, keyOf_eq_ok_iff.2 hkey]
    show ((normalize strict e.text).mapError (Fault.escape "string" key) >>= fun text =>
      Except.ok (key, text)) = .ok (key, text)
    rw [htext]
    rfl

/-! ### What is built -/

section

variable {strict : Bool} {sourceSet : SourceSetName} {root : Path} {files files' : List Path}
  {t : FileTree} {es es' : List (Entry .strings)} {dss : List (List (Declaration Locale String))}

theorem build_strings_iff : (∃ es, build strict sourceSet root files t .strings = .ok es) ↔
    ∃ dss, List.Forall₂ (DeclaresStrings strict root t) files dss ∧
      (dss.flatten.map fun d => (d.key, d.qualifier)).Nodup :=
  exists_bind_pure_iff.trans (exists_gather_texts_iff fun _ _ _ => stringOf_eq_ok_iff)

theorem build_strings_entries (h : build strict sourceSet root files t .strings = .ok es)
    (hdss : List.Forall₂ (DeclaresStrings strict root t) files dss) :
    es.map Entry.key = (dss.flatten.map Declaration.key).eraseDups ∧
      ∀ e ∈ es, OrderedMap.entries e.value =
        (dss.flatten.filter fun d => d.key = e.key).map fun d => (d.qualifier, d.value) := by
  obtain ⟨m, hm, h⟩ := bind_eq_ok h
  have hlists := lists_of_gather_texts (fun _ _ _ => stringOf_eq_ok_iff) hm hdss
  rw [← Except.ok.inj h]
  exact hlists.entriesOf (k := .strings)
    (P := fun key v => OrderedMap.entries v =
      (dss.flatten.filter fun d => d.key = key).map fun d => (d.qualifier, d.value))
    fun _ _ he => hlists.entries_withoutPaths he

/-- The same files in another order declare the same in another order. -/
theorem exists_perm_of_files (hfiles : files.Perm files')
    (hdss : List.Forall₂ (DeclaresStrings strict root t) files dss) :
    ∃ dss', dss'.flatten.Perm dss.flatten ∧
      List.Forall₂ (DeclaresStrings strict root t) files' dss' := by
  obtain ⟨dss', hdss', hperm⟩ := List.perm_comp_forall₂ hfiles.symm hdss
  exact ⟨dss', hperm.flatten, hdss'⟩

theorem build_strings_of_perm (hfiles : files.Perm files')
    (h : ∃ es, build strict sourceSet root files t .strings = .ok es) :
    ∃ es, build strict sourceSet root files' t .strings = .ok es := by
  obtain ⟨dss, hdss, hnodup⟩ := build_strings_iff.1 h
  obtain ⟨dss', hperm, hdss'⟩ := exists_perm_of_files hfiles hdss
  exact build_strings_iff.2 ⟨dss', hdss', (hperm.map _).nodup_iff.2 hnodup⟩

theorem eraseDups_perm {κ : Type} [DecidableEq κ] {l l' : List κ} (h : l.Perm l') :
    l.eraseDups.Perm l'.eraseDups := by
  refine (List.perm_ext_iff_of_nodup (nodup_eraseDups l) (nodup_eraseDups l')).2 fun a => ?_
  rw [List.mem_eraseDups, List.mem_eraseDups, h.mem_iff]

/-- The same files in another order give the same keys with the same texts. -/
theorem build_strings_perm (hfiles : files.Perm files')
    (h : build strict sourceSet root files t .strings = .ok es)
    (h' : build strict sourceSet root files' t .strings = .ok es') :
    (es.map Entry.key).Perm (es'.map Entry.key) ∧ ∀ e ∈ es, ∀ e' ∈ es', e.key = e'.key →
      (OrderedMap.entries e.value).Perm (OrderedMap.entries e'.value) := by
  obtain ⟨dss, hdss, -⟩ := build_strings_iff.1 ⟨es, h⟩
  obtain ⟨dss', hperm, hdss'⟩ := exists_perm_of_files hfiles hdss
  obtain ⟨hkeys, hentries⟩ := build_strings_entries h hdss
  obtain ⟨hkeys', hentries'⟩ := build_strings_entries h' hdss'
  refine ⟨?_, fun e he e' he' hkey => ?_⟩
  · rw [hkeys, hkeys']
    exact eraseDups_perm (hperm.symm.map Declaration.key)
  · rw [hentries e he, hentries' e' he', hkey]
    exact (hperm.symm.filter _).map _

end

/-- **Strings are built as they are declared.** Building succeeds if and only if every file is the
document of a locale, and no key is declared twice for one locale over all files. It gives one entry
for each declared key, in the order of the first declaration; the entry has exactly the locales that
declare the key, in order, each with its text. Another order of the files changes neither whether
building succeeds nor which key has which text for which locale. -/
theorem build_strings_eq_ok_iff (strict : Bool) (sourceSet : SourceSetName) (root : Path)
    (files : List Path) (t : FileTree) :
    ((∃ es, build strict sourceSet root files t .strings = .ok es) ↔
      ∃ dss, List.Forall₂ (DeclaresStrings strict root t) files dss ∧
        (dss.flatten.map fun d => (d.key, d.qualifier)).Nodup) ∧
    (∀ es dss, build strict sourceSet root files t .strings = .ok es →
      List.Forall₂ (DeclaresStrings strict root t) files dss →
      es.map Entry.key = (dss.flatten.map Declaration.key).eraseDups ∧
        ∀ e ∈ es, OrderedMap.entries e.value =
          (dss.flatten.filter fun d => d.key = e.key).map fun d => (d.qualifier, d.value)) ∧
    ∀ files', files.Perm files' →
      ((∃ es, build strict sourceSet root files t .strings = .ok es) ↔
        ∃ es, build strict sourceSet root files' t .strings = .ok es) ∧
      ∀ es es', build strict sourceSet root files t .strings = .ok es →
        build strict sourceSet root files' t .strings = .ok es' →
        (es.map Entry.key).Perm (es'.map Entry.key) ∧ ∀ e ∈ es, ∀ e' ∈ es', e.key = e'.key →
          (OrderedMap.entries e.value).Perm (OrderedMap.entries e'.value) :=
  ⟨build_strings_iff, fun _ _ => build_strings_entries, fun _ hfiles =>
    ⟨⟨build_strings_of_perm hfiles, build_strings_of_perm hfiles.symm⟩,
      fun _ _ => build_strings_perm hfiles⟩⟩

/-! ### Strings in two files -/

namespace Greeting

def common : SourceSetName := ⟨"greetingMain", by decide⟩

def files : List Path := [⟨"res/strings.xml"⟩, ⟨"res/fr/strings.xml"⟩]

/-- A file right below the root, and one in the directory of a locale that starts with another
string. -/
def tree : FileTree where
  nodes := OrderedMap.ofList [(["res"], .directory), (["res", "fr"], .directory),
    (["res", "strings.xml"],
      .file "<resources><string name=\"hello\">Hello</string></resources>".toUTF8),
    (["res", "fr", "strings.xml"],
      .file ("<resources><string name=\"bye\">Adieu</string>" ++
        "<string name=\"hello\">Bonjour</string></resources>").toUTF8)]
  rooted := by decide +kernel

end Greeting

/-- The files in reverse give the same strings in another order. -/
theorem build_strings_perm_greeting :
    ∃ es es', build false Greeting.common ⟨"res"⟩ Greeting.files Greeting.tree .strings = .ok es ∧
      build false Greeting.common ⟨"res"⟩ Greeting.files.reverse Greeting.tree .strings =
        .ok es' ∧
      (es.map Entry.key).Perm (es'.map Entry.key) ∧ es.map Entry.key ≠ es'.map Entry.key := by
  obtain ⟨es, hes⟩ : ∃ es,
      build false Greeting.common ⟨"res"⟩ Greeting.files Greeting.tree .strings = .ok es :=
    exists_of_isOk (by decide +kernel)
  obtain ⟨hok, hperm⟩ := (build_strings_eq_ok_iff false Greeting.common ⟨"res"⟩ Greeting.files
    Greeting.tree).2.2 _ (List.reverse_perm _).symm
  obtain ⟨es', hes'⟩ := hok.1 ⟨es, hes⟩
  have hother :
      (build false Greeting.common ⟨"res"⟩ Greeting.files Greeting.tree .strings).map
          (List.map Entry.key) ≠
        (build false Greeting.common ⟨"res"⟩ Greeting.files.reverse Greeting.tree .strings).map
          (List.map Entry.key) := by decide +kernel
  rw [hes, hes'] at hother
  exact ⟨es, es', hes, hes', (hperm es es' hes hes').1, fun h => hother (congrArg Except.ok h)⟩

end ResourceCompiler.Source
