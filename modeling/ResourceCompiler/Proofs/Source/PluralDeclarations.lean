import ResourceCompiler.Proofs.Source.Documents

/-!
# Plurals as they are declared

Plurals are built from files exactly if each file is the document of a locale, each of its entries is
a plural with a form for `other` and no category twice, and no key has two plurals for one locale
over all files. They then list what the files declare. The forms are the children of an entry that
are elements, whatever these are called: an entry with a misspelled form is taken in like one whose
forms are all called `item`.

* `IsForm`, `HasForms`: a form, and a plural, said without reading it in steps.
* `IsPlural`: a plural whose forms are all called `item`.
* `formsFrom_eq_ok_iff`, `pluralOf_eq_ok_iff`: when forms are read, and when a plural is.
* `build_plurals_accepts`: when plurals are built, what they are, and which of them have a form that
  is called otherwise.
-/

namespace ResourceCompiler.Source

open OrderedMap

/-! ### What an entry declares -/

/-- Whether an element gives a text to a category of numbers. -/
structure IsForm (strict : Bool) (item : Xml.Element) (q : Quantity) (text : String) : Prop where
  quantity_eq : item.attribute? "quantity" = some q.text
  text_eq : normalize strict item.text = .ok text

/-- Whether an element is a plural of the given key and forms, in order. A map has no category
twice. -/
structure HasForms (strict : Bool) (e : Xml.Element) (key : Key) (forms : PluralForms) : Prop where
  name_eq : e.name = "plural"
  key_eq : e.attribute? "name" = some key.text
  forms_eq : List.Forall₂ (fun item form => IsForm strict item form.1 form.2) e.elements
    forms.entries
  other_mem : Quantity.other ∈ forms.keys

/-- Whether an element is a plural of the given key and forms, all of them called `item`. -/
structure IsPlural (strict : Bool) (e : Xml.Element) (key : Key) (forms : PluralForms) : Prop
    extends HasForms strict e key forms where
  items : ∀ item ∈ e.elements, item.name = "item"

/-! ### Reading an entry -/

variable {strict : Bool} {key : Key}

theorem quantity_eq_some_iff {item : Xml.Element} {q : Quantity} :
    (item.attribute? "quantity").bind Quantity.ofText? = some q ↔
      item.attribute? "quantity" = some q.text := by
  cases item.attribute? "quantity" with
  | none => exact iff_of_false (fun h => by cases h) fun h => by cases h
  | some text =>
    rw [Option.bind_some, Option.some.injEq]
    constructor
    · intro h
      have hword := List.find?_some (p := fun a => Quantity.text a == text) h
      exact (eq_of_beq hword).symm
    · rintro rfl
      exact Quantity.ofText?_text q

/-- A form is read exactly if its category is new, and is then the last one. -/
theorem formsFrom_cons_eq_ok_iff {forms read : PluralForms} {item : Xml.Element}
    {rest : List Xml.Element} : formsFrom strict key forms (item :: rest) = .ok read ↔
      ∃ q text, IsForm strict item q text ∧ q ∉ forms.keys ∧
        formsFrom strict key (forms.insert q text) rest = .ok read := by
  rw [formsFrom]
  cases hq : (item.attribute? "quantity").bind Quantity.ofText? with
  | none =>
    refine iff_of_false (fun h => by cases h) ?_
    rintro ⟨q, text, hform, -, -⟩
    rw [quantity_eq_some_iff.2 hform.quantity_eq] at hq
    cases hq
  | some q =>
    constructor
    · intro h
      obtain ⟨text, htext, h⟩ := bind_eq_ok h
      split at h
      · cases h
      · rename_i hcontains
        refine ⟨q, text, ⟨quantity_eq_some_iff.1 hq, mapError_eq_ok_iff.1 htext⟩, ?_, h⟩
        exact fun hmem => hcontains (contains_iff.2 hmem)
    · rintro ⟨q', text, hform, hnew, h⟩
      rw [quantity_eq_some_iff.2 hform.quantity_eq] at hq
      obtain rfl := Option.some.inj hq
      rw [hform.text_eq]
      exact (if_neg fun hcontains => hnew (contains_iff.1 hcontains)).trans h

/-- **Forms are read as they stand behind those read before.** -/
theorem formsFrom_eq_ok_iff {forms read : PluralForms} {items : List Xml.Element} :
    formsFrom strict key forms items = .ok read ↔
      ∃ more, List.Forall₂ (fun item form => IsForm strict item form.1 form.2) items more ∧
        read.entries = forms.entries ++ more := by
  induction items generalizing forms with
  | nil =>
    simp only [formsFrom, Except.ok.injEq, List.forall₂_nil_left_iff, exists_eq_left,
      List.append_nil]
    exact ⟨fun h => h ▸ rfl, fun h => OrderedMap.ext h.symm⟩
  | cons item rest ih =>
    rw [formsFrom_cons_eq_ok_iff]
    constructor
    · rintro ⟨q, text, hform, hnew, h⟩
      obtain ⟨more, hmore, hread⟩ := ih.1 h
      refine ⟨(q, text) :: more, .cons hform hmore, ?_⟩
      rw [hread, Declared.entries_insert_of_notMem hnew, List.append_assoc, List.singleton_append]
    · rintro ⟨_, hall, hread⟩
      obtain ⟨⟨q, text⟩, more, hform, hmore, rfl⟩ := List.forall₂_cons_left_iff.1 hall
      have hnew : q ∉ forms.keys := by
        have hdistinct := read.distinct
        rw [hread, List.map_append, List.map_cons] at hdistinct
        exact fun hmem => (List.nodup_append.1 hdistinct).2.2 q hmem q List.mem_cons_self rfl
      refine ⟨q, text, hform, hnew, ih.2 ⟨more, hmore, ?_⟩⟩
      rw [hread, Declared.entries_insert_of_notMem hnew, List.append_assoc, List.singleton_append]

theorem formsOf_eq_ok_iff {forms : PluralForms} {items : List Xml.Element} :
    formsOf strict key items = .ok forms ↔
      List.Forall₂ (fun item form => IsForm strict item form.1 form.2) items forms.entries ∧
        Quantity.other ∈ forms.keys := by
  have hread (read : PluralForms) : formsFrom strict key .empty items = .ok read ↔
      List.Forall₂ (fun item form => IsForm strict item form.1 form.2) items read.entries :=
    formsFrom_eq_ok_iff.trans ⟨fun ⟨_, hmore, h⟩ => h ▸ hmore, fun h => ⟨_, h, rfl⟩⟩
  constructor
  · intro h
    obtain ⟨read, hforms, h⟩ := bind_eq_ok h
    split at h
    · rename_i hother
      rw [← Except.ok.inj h]
      exact ⟨(hread read).1 hforms, contains_iff.1 hother⟩
    · cases h
  · rintro ⟨hforms, hother⟩
    rw [formsOf, (hread forms).2 hforms]
    exact if_pos (contains_iff.2 hother)

theorem pluralOf_eq_ok_iff {e : Xml.Element} {forms : PluralForms} :
    pluralOf strict e = .ok (key, forms) ↔ HasForms strict e key forms := by
  constructor
  · intro h
    obtain ⟨⟨⟩, hname, h⟩ := bind_eq_ok h
    obtain ⟨key', hkey, h⟩ := bind_eq_ok h
    obtain ⟨forms', hforms, h⟩ := bind_eq_ok h
    obtain ⟨rfl, rfl⟩ := Prod.mk.inj (Except.ok.inj h)
    obtain ⟨hforms, hother⟩ := formsOf_eq_ok_iff.1 hforms
    exact ⟨expectElement_eq_ok_iff.1 hname, keyOf_eq_ok_iff.1 hkey, hforms, hother⟩
  · rintro ⟨hname, hkey, hforms, hother⟩
    rw [pluralOf, expectElement_eq_ok_iff.2 hname, keyOf_eq_ok_iff.2 hkey]
    show (formsOf strict key e.elements >>= fun forms => Except.ok (key, forms)) = .ok (key, forms)
    rw [formsOf_eq_ok_iff.2 ⟨hforms, hother⟩]
    rfl

theorem isPlural_iff (e : Xml.Element) (key : Key) (forms : PluralForms) :
    IsPlural strict e key forms ↔
      HasForms strict e key forms ∧ ∀ item ∈ e.elements, item.name = "item" :=
  ⟨fun h => ⟨h.toHasForms, h.items⟩, fun h => ⟨h.1, h.2⟩⟩

/-! ### What is built -/

/-- **Plurals are built as they are declared, whatever their forms are called.** Building succeeds if
and only if every file is the document of a locale, its entries are plurals with valid forms, and no
key is declared twice for one locale over all files. It gives one entry for each declared key, in the
order of the first declaration; the entry has exactly the locales that declare the key, in order,
each with its forms in order. A list of files declares plurals whose forms are all called `item` if
and only if it is one that plurals are built from, and no child of their entries is called
otherwise. -/
theorem build_plurals_accepts (strict : Bool) (sourceSet : SourceSetName) (root : Path)
    (files : List Path) (t : FileTree) :
    ((∃ es, build strict sourceSet root files t .plurals = .ok es) ↔
      ∃ dss, List.Forall₂ (Declares (IsLocaleOf root) (HasForms strict) t) files dss ∧
        (dss.flatten.map fun d => (d.key, d.qualifier)).Nodup) ∧
    (∀ es dss, build strict sourceSet root files t .plurals = .ok es →
      List.Forall₂ (Declares (IsLocaleOf root) (HasForms strict) t) files dss →
      es.map Entry.key = (dss.flatten.map Declaration.key).eraseDups ∧
        ∀ e ∈ es, OrderedMap.entries e.value =
          (dss.flatten.filter fun d => d.key = e.key).map fun d => (d.qualifier, d.value)) ∧
    ((∃ dss, List.Forall₂ (Declares (IsLocaleOf root) (IsPlural strict) t) files dss ∧
        (dss.flatten.map fun d => (d.key, d.qualifier)).Nodup) ↔
      (∃ es, build strict sourceSet root files t .plurals = .ok es) ∧
        ∀ path ∈ files, EachEntry (fun e => ∀ item ∈ e.elements, item.name = "item") t path) := by
  have hbuild : (∃ es, build strict sourceSet root files t .plurals = .ok es) ↔
      ∃ dss, List.Forall₂ (Declares (IsLocaleOf root) (HasForms strict) t) files dss ∧
        (dss.flatten.map fun d => (d.key, d.qualifier)).Nodup :=
    exists_bind_pure_iff.trans (exists_gather_texts_iff fun _ _ _ => pluralOf_eq_ok_iff)
  refine ⟨hbuild, fun es dss h hdss => ?_, ?_⟩
  · obtain ⟨m, hm, h⟩ := bind_eq_ok h
    have hlists := lists_of_gather_texts (fun _ _ _ => pluralOf_eq_ok_iff) hm hdss
    rw [← Except.ok.inj h]
    exact hlists.entriesOf (k := .plurals)
      (P := fun key v => OrderedMap.entries v =
        (dss.flatten.filter fun d => d.key = key).map fun d => (d.qualifier, d.value))
      fun _ _ he => hlists.entries_withoutPaths he
  · rw [hbuild]
    exact exists_declares_and_iff isPlural_iff

/-! ### A plural with a misspelled form -/

namespace Orchard

def common : SourceSetName := ⟨"orchardMain", by decide⟩

def files : List Path := [⟨"res/plurals.xml"⟩]

def document : String :=
  "<resources><plural name=\"apples\"><itm quantity=\"other\">%d apples</itm></plural></resources>"

def tree : FileTree where
  nodes := OrderedMap.ofList [(["res"], .directory), (["res", "plurals.xml"],
    .file document.toUTF8)]
  rooted := by decide +kernel

end Orchard

/-- The misspelled form is built as the file declares it, though no form in the file is called
`item`. -/
theorem build_plurals_accepts_orchard :
    ∃ es dss, build false Orchard.common ⟨"res"⟩ Orchard.files Orchard.tree .plurals = .ok es ∧
      List.Forall₂ (Declares (IsLocaleOf ⟨"res"⟩) (HasForms false) Orchard.tree) Orchard.files
        dss ∧
      es.map (fun e => e.key.text) = ["apples"] ∧
      es.map Entry.key = (dss.flatten.map Declaration.key).eraseDups ∧
      ¬ ∃ dss, List.Forall₂ (Declares (IsLocaleOf ⟨"res"⟩) (IsPlural false) Orchard.tree)
          Orchard.files dss ∧ (dss.flatten.map fun d => (d.key, d.qualifier)).Nodup := by
  obtain ⟨hbuild, hentries, hplural⟩ := build_plurals_accepts false Orchard.common ⟨"res"⟩
    Orchard.files Orchard.tree
  obtain ⟨es, hes, hkeys⟩ : ∃ es,
      build false Orchard.common ⟨"res"⟩ Orchard.files Orchard.tree .plurals = .ok es ∧
        es.map (fun e => e.key.text) = ["apples"] := exists_of_toOption_map (by decide +kernel)
  obtain ⟨dss, hdss, -⟩ := hbuild.1 ⟨es, hes⟩
  refine ⟨es, dss, hes, hdss, hkeys, (hentries es dss hes hdss).1, fun hstrict => ?_⟩
  have htext : Orchard.tree.readText ⟨"res/plurals.xml"⟩ = .ok Orchard.document := by
    decide +kernel
  obtain ⟨read, hread, hnames⟩ : ∃ read, Xml.read Orchard.document = .ok read ∧
      (read.elements.flatMap Xml.Element.elements).map Xml.Element.name = ["itm"] :=
    exists_of_toOption_map (by decide +kernel)
  have hitems := (hplural.1 hstrict).2 _ List.mem_cons_self _ _ htext hread
  obtain ⟨item, hitem, hname⟩ := List.mem_map.1 (hnames ▸ List.mem_singleton_self "itm")
  obtain ⟨e, he, hitem⟩ := List.mem_flatMap.1 hitem
  rw [hitems e he item hitem] at hname
  exact absurd hname (by decide)

end ResourceCompiler.Source
