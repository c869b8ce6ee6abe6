import ResourceCompiler.Proofs.Overlay
import ResourceCompiler.Proofs.Sequence
import ResourceCompiler.Proofs.Source.Gathering

/-!
# Documents and what they declare

A file without a fault is a document whose entries are its declarations, one by one. The files of a
source set are gathered exactly if all of them are such documents and no key has two values under
one qualifier. What is gathered then lists the declarations in the order of the files.

* `Declared.Lists`: a map that lists exactly the given declarations, in order.
* `Declared.Lists.add`, `lists_of_gather`: one more declaration, and all declarations.
* `Declares`: what a file declares, said without reading it in steps.
* `EachEntry`, `declares_and_iff`: what holds of all entries of a file.
* `textDeclarations_eq_map_iff`, `exists_gather_iff`: when files are read, and when they are gathered.
-/

namespace ResourceCompiler.Source

open OrderedMap

variable {Q V : Type} [DecidableEq Q]

/-! ### Declarations in order -/

/-- Whether a map lists exactly the given declarations: the keys in the order of their first
declaration, and for each of them its declarations in order. -/
structure Declared.Lists (m : Declared Q V) (ds : List (Declaration Q V)) : Prop where
  keys_eq : m.keys = (ds.map Declaration.key).eraseDups
  entries_eq : ∀ key values, m.get? key = some values →
    values.entries =
      (ds.filter fun d => d.key = key).map fun d => (d.qualifier, d.value, d.path)

namespace Declared

variable {m : Declared Q V} {d : Declaration Q V} {ds : List (Declaration Q V)}

omit [DecidableEq Q] in
theorem lists_empty : Lists (.empty : Declared Q V) [] where
  keys_eq := rfl
  entries_eq := fun _ _ h => by cases h

omit [DecidableEq Q] in
theorem Lists.mem_keys_iff (h : m.Lists ds) {key : Key} :
    key ∈ m.keys ↔ ∃ d ∈ ds, d.key = key := by
  rw [h.keys_eq, List.mem_eraseDups, List.mem_map]

omit [DecidableEq Q] in
/-- The declarations of a key are what the map lists for it, or nothing. -/
theorem Lists.entries_getD (h : m.Lists ds) (key : Key) :
    ((m.get? key).getD .empty).entries =
      (ds.filter fun d => d.key = key).map fun d => (d.qualifier, d.value, d.path) := by
  cases hget : m.get? key with
  | some values => exact h.entries_eq key values hget
  | none =>
    have hnone : ds.filter (fun d => d.key = key) = [] := by
      refine List.filter_eq_nil_iff.2 fun d hd => ?_
      rw [decide_eq_true_iff]
      exact fun hkey => get?_eq_none_iff.1 hget (h.mem_keys_iff.2 ⟨d, hd, hkey⟩)
    rw [hnone]
    rfl

/-- A pair that has not been declared in the map is new to the declarations that it lists. -/
theorem Lists.fresh (h : m.Lists ds) (hnone : m.declaredIn? d.key d.qualifier = none) :
    Fresh d ds := by
  intro x hx hkey hqualifier
  obtain ⟨⟨key, values⟩, hentry, hfirst⟩ := List.mem_map.1 (h.mem_keys_iff.2 ⟨x, hx, hkey⟩)
  obtain rfl : key = d.key := hfirst
  have hvalues := mem_entries_iff.1 hentry
  have hmem : (d.qualifier, x.value, x.path) ∈ values.entries := by
    rw [h.entries_eq _ _ hvalues]
    exact List.mem_map.2 ⟨x, List.mem_filter.2 ⟨hx, decide_eq_true hkey⟩, by rw [hqualifier]⟩
  rw [declaredIn?, hvalues, Option.bind_some, mem_entries_iff.1 hmem] at hnone
  cases hnone

/-- A key that is put for the first time stands at the end. -/
theorem entries_insert_of_notMem {κ α : Type} [DecidableEq κ] {n : OrderedMap κ α} {key : κ}
    (h : key ∉ n.keys) (value : α) :
    (n.insert key value).entries = n.entries ++ [(key, value)] := by
  have hnew : (n.keys ++ [(key, value)].map Prod.fst).Nodup := by
    rw [List.map_singleton, ← List.concat_eq_append, List.nodup_concat]
    exact ⟨h, n.nodup_keys⟩
  exact entries_putAll_of_disjoint hnew

/-- **One more declaration stands at the end.** -/
theorem Lists.add (h : m.Lists ds) (hd : Fresh d ds) : (m.add d).Lists (ds ++ [d]) where
  keys_eq := by
    rw [Declared.add, keys_insert, List.map_append, List.map_singleton, eraseDups_concat,
      ← h.keys_eq]
    simp only [h.keys_eq, List.mem_eraseDups]
  entries_eq := by
    intro key values hvalues
    rw [Declared.add, get?_insert] at hvalues
    rw [List.filter_append, List.map_append]
    split at hvalues
    · rename_i hkey
      subst hkey
      have hnew : d.qualifier ∉ ((m.get? d.key).getD .empty).keys := by
        rw [keys, h.entries_getD, List.map_map, List.mem_map]
        rintro ⟨x, hx, hqualifier⟩
        obtain ⟨hx, hkey⟩ := List.mem_filter.1 hx
        exact hd x hx (of_decide_eq_true hkey) hqualifier
      rw [← Option.some.inj hvalues, entries_insert_of_notMem hnew, h.entries_getD]
      simp
    · rename_i hkey
      rw [h.entries_eq key values hvalues]
      simp [hkey]

end Declared

/-- Declarations are only gathered if none is a fault and none is of a pair that has been declared
before; the map lists them all in the end. -/
theorem lists_of_gatherFrom {twice : Declaration Q V → Path → SourceError} {m n : Declared Q V}
    {before : List (Declaration Q V)} {items : List (Except SourceError (Declaration Q V))}
    (hm : m.Lists before) (hbefore : (before.map fun d => (d.key, d.qualifier)).Nodup)
    (h : gatherFrom twice m items = .ok n) :
    ∃ ds, items = ds.map .ok ∧ ((before ++ ds).map fun d => (d.key, d.qualifier)).Nodup ∧
      n.Lists (before ++ ds) := by
  induction items generalizing m before with
  | nil =>
    rw [← Except.ok.inj h]
    refine ⟨[], rfl, ?_, ?_⟩
    · rwa [List.append_nil]
    · rwa [List.append_nil]
  | cons item items ih =>
    cases item with
    | error e => cases h
    | ok d =>
      rw [gatherFrom] at h
      split at h
      · cases h
      · rename_i hnone
        have hfresh := hm.fresh hnone
        have hnodup : ((before ++ [d]).map fun d => (d.key, d.qualifier)).Nodup := by
          rw [List.map_append, List.map_singleton, ← List.concat_eq_append, List.nodup_concat]
          refine ⟨fun hmem => ?_, hbefore⟩
          obtain ⟨x, hx, hpair⟩ := List.mem_map.1 hmem
          exact hfresh x hx (Prod.mk.inj hpair).1 (Prod.mk.inj hpair).2
        obtain ⟨ds, rfl, hds, hn⟩ := ih (hm.add hfresh) hnodup h
        rw [List.append_assoc, List.singleton_append] at hds hn
        exact ⟨d :: ds, rfl, hds, hn⟩

theorem lists_of_gather {sourceSet : SourceSetName} {kind : Kind} {qualifierText : Q → String}
    {items : List (Except SourceError (Declaration Q V))} {m : Declared Q V}
    (h : gather sourceSet kind qualifierText items = .ok m) :
    ∃ ds, items = ds.map .ok ∧ (ds.map fun d => (d.key, d.qualifier)).Nodup ∧ m.Lists ds :=
  lists_of_gatherFrom Declared.lists_empty List.nodup_nil h

/-- Declarations are gathered exactly if none is a fault, and no two are of one pair. -/
theorem exists_gather_iff {sourceSet : SourceSetName} {kind : Kind} {qualifierText : Q → String}
    {items : List (Except SourceError (Declaration Q V))} :
    (∃ m, gather sourceSet kind qualifierText items = .ok m) ↔
      ∃ ds : List (Declaration Q V), items = ds.map .ok ∧
        (ds.map fun d => (d.key, d.qualifier)).Nodup := by
  constructor
  · rintro ⟨m, hm⟩
    obtain ⟨ds, hds, hnodup, -⟩ := lists_of_gather hm
    exact ⟨ds, hds, hnodup⟩
  · rintro ⟨ds, rfl, hnodup⟩
    obtain ⟨m, hm, -⟩ := gather_eq_ok sourceSet kind qualifierText hnodup
    exact ⟨m, hm⟩

/-- What is gathered of declarations lists them. -/
theorem lists_of_gather_map {sourceSet : SourceSetName} {kind : Kind} {qualifierText : Q → String}
    {ds : List (Declaration Q V)} {m : Declared Q V}
    (h : gather sourceSet kind qualifierText (ds.map .ok) = .ok m) :
    (ds.map fun d => (d.key, d.qualifier)).Nodup ∧ m.Lists ds := by
  obtain ⟨ds', hds, hnodup, hlists⟩ := lists_of_gather h
  obtain rfl := List.map_injective_iff.2 (fun _ _ => Except.ok.inj) hds
  exact ⟨hnodup, hlists⟩

omit [DecidableEq Q] in
/-- The values that a map lists for a key, without the files that declare them. -/
theorem Declared.Lists.entries_withoutPaths {m : Declared Q V} {ds : List (Declaration Q V)}
    (h : m.Lists ds) {key : Key} {values : OrderedMap Q (V × Path)}
    (hmem : (key, values) ∈ m.entries) : (withoutPaths values).entries =
      (ds.filter fun d => d.key = key).map fun d => (d.qualifier, d.value) := by
  show values.entries.map _ = _
  rw [h.entries_eq key values (mem_entries_iff.1 hmem), List.map_map]
  rfl

omit [DecidableEq Q] in
/-- Entries made of a map have its keys, and each of them what is made of the values of its key. -/
theorem Declared.Lists.entriesOf {m : Declared Q V} {ds : List (Declaration Q V)} (h : m.Lists ds)
    {k : Kind} {value : OrderedMap Q (V × Path) → k.Value} {P : Key → k.Value → Prop}
    (hvalue : ∀ key values, (key, values) ∈ m.entries → P key (value values)) :
    (Source.entriesOf k (fun vs => some (value vs)) m).map Entry.key =
        (ds.map Declaration.key).eraseDups ∧
      ∀ e ∈ Source.entriesOf k (fun vs => some (value vs)) m, P e.key e.value := by
  have hentries : Source.entriesOf k (fun vs => some (value vs)) m =
      m.entries.map fun e => ⟨e.1, value e.2⟩ := congrFun List.filterMap_eq_map m.entries
  rw [hentries, List.map_map, ← h.keys_eq]
  exact ⟨rfl, List.forall_mem_map.2 fun e he => hvalue e.1 e.2 he⟩

/-! ### What a file declares -/

/-- Whether a file is a resource document that declares exactly the given values, in order, each by
one of its entries and under the qualifier of the file. -/
def Declares (IsQualifier : Path → Q → Prop) (IsEntry : Xml.Element → Key → V → Prop)
    (t : FileTree) (path : Path) (ds : List (Declaration Q V)) : Prop :=
  ∃ q text document, IsQualifier path q ∧ t.readText path = .ok text ∧
    Xml.read text = .ok document ∧ document.name = "resources" ∧
    List.Forall₂ (fun e d => IsEntry e d.key d.value ∧ d.qualifier = q ∧ d.path = path)
      document.elements ds

/-- Whether a file is for a locale: for the base if it stands directly below the root, otherwise for
the locale that its directory is named for. -/
def IsLocaleOf (root path : Path) (l : Locale) : Prop :=
  let directory := path.parent?.getD root
  if directory.same root then l = .base else directory.fileName? = some l.text

/-- What is made of a result is there exactly if the result is. -/
theorem exists_bind_pure_iff {ε α β : Type} {x : Except ε α} {f : α → β} :
    (∃ b, (do return f (← x)) = Except.ok b) ↔ ∃ a, x = .ok a := by
  cases x with
  | error e => exact iff_of_false (fun ⟨_, h⟩ => by cases h) fun ⟨_, h⟩ => by cases h
  | ok a => exact iff_of_true ⟨f a, rfl⟩ ⟨a, rfl⟩

theorem exists_of_isOk {ε α : Type} {x : Except ε α} (h : x.isOk = true) : ∃ a, x = .ok a := by
  cases x with
  | error e => cases h
  | ok a => exact ⟨a, rfl⟩

/-- A result that something is made of is there, and is what that is made of. -/
theorem exists_of_toOption_map {ε α β : Type} {x : Except ε α} {f : α → β} {b : β}
    (h : x.toOption.map f = some b) : ∃ a, x = .ok a ∧ f a = b := by
  cases x with
  | error e => cases h
  | ok a => exact ⟨a, rfl, Option.some.inj h⟩

theorem expectElement_eq_ok_iff {name : String} {e : Xml.Element} :
    expectElement name e = .ok () ↔ e.name = name := by
  rw [expectElement]
  split
  · rename_i hname
    exact iff_of_true rfl hname
  · rename_i hname
    exact iff_of_false (fun h => by cases h) hname

theorem keyOf_eq_ok_iff {e : Xml.Element} {key : Key} :
    keyOf e = .ok key ↔ e.attribute? "name" = some key.text := by
  rw [keyOf]
  cases hname : e.attribute? "name" with
  | none => exact iff_of_false (fun h => by cases h) fun h => by cases h
  | some name =>
    show (Key.ofText? name).mapError Fault.invalid = .ok key ↔ some name = some key.text
    rw [mapError_eq_ok_iff, Key.ofText?_eq_ok_iff, Option.some.injEq, eq_comm]

theorem Place.locale_eq_ok_iff {p : Place} {root : Path} {l : Locale} :
    p.locale root = .ok l ↔ IsLocaleOf root p.path l := by
  rw [Place.locale, IsLocaleOf]
  split
  · rw [Except.ok.injEq, eq_comm]
  · rw [mapError_eq_ok_iff]
    constructor
    · intro h
      have htext := Locale.text_of_ofText?_eq_ok h
      cases hname : (p.path.parent?.getD root).fileName? with
      | some name => rw [htext, hname, Option.getD_some]
      | none =>
        -- no locale has an empty text
        have hempty : (Locale.ofText? "").isOk = false := by decide
        rw [hname, Option.getD_none] at h
        rw [h] at hempty
        cases hempty
    · intro h
      rw [h, Option.getD_some, Locale.ofText?_text]

/-- The elements of a document without a fault. -/
theorem Place.resources_eq_ok_iff {p : Place} {t : FileTree} {es : List Xml.Element} :
    p.resources t = .ok es ↔ ∃ text document, t.readText p.path = .ok text ∧
      Xml.read text = .ok document ∧ document.name = "resources" ∧ document.elements = es := by
  constructor
  · intro h
    obtain ⟨text, htext, h⟩ := bind_eq_ok h
    obtain ⟨document, hdocument, h⟩ := bind_eq_ok h
    refine ⟨text, document, mapError_eq_ok_iff.1 htext, mapError_eq_ok_iff.1 hdocument, ?_⟩
    split at h
    · cases h
    · rename_i hname
      exact ⟨not_not.1 hname, Except.ok.inj h⟩
  · rintro ⟨text, document, htext, hdocument, hname, rfl⟩
    exact Place.resources_eq_ok htext hdocument hname

theorem singleton_error_ne_map_ok {ε α : Type} (e : ε) (as : List α) :
    [.error e] ≠ as.map (Except.ok (ε := ε)) := by
  intro h
  cases as with
  | nil => cases h
  | cons a as => cases (List.cons.inj h).1

omit [DecidableEq Q] in
/-- The declarations of a document without a fault are those of its elements. -/
theorem Place.declarations_eq_map_iff {value : Xml.Element → Except Fault (Key × V)} {p : Place}
    {q : Q} {es : Except SourceError (List Xml.Element)} {ds : List (Declaration Q V)} :
    p.declarations q value es = ds.map .ok ↔ ∃ elements, es = .ok elements ∧
      List.Forall₂ (fun e d => value e = .ok (d.key, d.value) ∧ d.qualifier = q ∧ d.path = p.path)
        elements ds := by
  cases es with
  | error f =>
    exact iff_of_false (singleton_error_ne_map_ok f ds) fun ⟨_, h, _⟩ => by cases h
  | ok elements =>
    rw [Place.declarations, ← List.forall₂_eq_eq_eq, List.forall₂_map_left_iff,
      List.forall₂_map_right_iff]
    simp only [Except.ok.injEq, exists_eq_left']
    refine iff_of_eq (congrArg (fun R => List.Forall₂ R elements ds) ?_)
    funext e d
    obtain ⟨key, qualifier, v, path⟩ := d
    cases value e with
    | error f => simp
    | ok item =>
      obtain ⟨key', v'⟩ := item
      simp only [Except.ok.injEq, Declaration.mk.injEq, Prod.mk.injEq, eq_comm, and_assoc,
        and_left_comm]

omit [DecidableEq Q] in
/-- The declarations of a file are without a fault exactly if it is a document of them. -/
theorem Place.declarations_resources_iff {value : Xml.Element → Except Fault (Key × V)}
    {IsEntry : Xml.Element → Key → V → Prop}
    (hvalue : ∀ e key v, value e = .ok (key, v) ↔ IsEntry e key v) {p : Place} {t : FileTree} {q : Q}
    {ds : List (Declaration Q V)} : p.declarations q value (p.resources t) = ds.map .ok ↔
      Declares (fun _ q' => q' = q) IsEntry t p.path ds := by
  rw [Place.declarations_eq_map_iff]
  simp only [Place.resources_eq_ok_iff, hvalue]
  constructor
  · rintro ⟨_, ⟨text, document, htext, hdocument, hname, rfl⟩, hds⟩
    exact ⟨q, text, document, rfl, htext, hdocument, hname, hds⟩
  · rintro ⟨_, text, document, rfl, htext, hdocument, hname, hds⟩
    exact ⟨_, ⟨text, document, htext, hdocument, hname, rfl⟩, hds⟩

omit [DecidableEq Q] in
/-- Qualifiers that are the same for a file make no difference to what it declares. -/
theorem declares_congr {IsQualifier IsQualifier' : Path → Q → Prop}
    {IsEntry : Xml.Element → Key → V → Prop} {t : FileTree} {path : Path}
    {ds : List (Declaration Q V)} (h : ∀ q, IsQualifier path q ↔ IsQualifier' path q) :
    Declares IsQualifier IsEntry t path ds ↔ Declares IsQualifier' IsEntry t path ds := by
  simp only [Declares, h]

/-- What is made of several things has no fault exactly if what is made of each has none. -/
theorem flatMap_eq_map_ok_iff {ε α β : Type} {f : α → List (Except ε β)}
    {R : α → List β → Prop} (h : ∀ a bs, f a = bs.map .ok ↔ R a bs) {as : List α} {bs : List β} :
    as.flatMap f = bs.map .ok ↔ ∃ bss, bs = bss.flatten ∧ List.Forall₂ R as bss := by
  induction as generalizing bs with
  | nil =>
    rw [List.flatMap_nil, eq_comm, List.map_eq_nil_iff]
    simp only [List.forall₂_nil_left_iff, exists_eq_right, List.flatten_nil]
  | cons a as ih =>
    rw [List.flatMap_cons, eq_comm, List.map_eq_append_iff]
    constructor
    · rintro ⟨first, rest, rfl, hfirst, hrest⟩
      obtain ⟨bss, rfl, hbss⟩ := ih.1 hrest.symm
      exact ⟨first :: bss, rfl, .cons ((h a first).1 hfirst.symm) hbss⟩
    · rintro ⟨bss, rfl, hbss⟩
      obtain ⟨first, rest, hfirst, hrest, rfl⟩ := List.forall₂_cons_left_iff.1 hbss
      exact ⟨first, rest.flatten, rfl, ((h a first).2 hfirst).symm, (ih.2 ⟨rest, rfl, hrest⟩).symm⟩

section

variable {kind : Kind} {value : Xml.Element → Except Fault (Key × V)}
  {IsEntry : Xml.Element → Key → V → Prop} {sourceSet : SourceSetName} {root : Path}
  {files : List Path} {t : FileTree}

/-- Files of texts are read without a fault exactly if each of them is a document for a locale. -/
theorem textDeclarations_eq_map_iff (hvalue : ∀ e key v, value e = .ok (key, v) ↔ IsEntry e key v)
    {ds : List (Declaration Locale V)} :
    textDeclarations kind value sourceSet root files t = ds.map .ok ↔
      ∃ dss, ds = dss.flatten ∧ List.Forall₂ (Declares (IsLocaleOf root) IsEntry t) files dss := by
  refine flatMap_eq_map_ok_iff fun path ds => ?_
  have hlocale (l : Locale) : (⟨sourceSet, kind, path⟩ : Place).locale root = .ok l ↔
      IsLocaleOf root path l := Place.locale_eq_ok_iff
  dsimp only
  cases hl : (⟨sourceSet, kind, path⟩ : Place).locale root with
  | error f =>
    refine iff_of_false (singleton_error_ne_map_ok f ds) ?_
    rintro ⟨l, _, _, hl', _⟩
    rw [← hlocale, hl] at hl'
    cases hl'
  | ok l =>
    refine (Place.declarations_resources_iff hvalue).trans (declares_congr fun l' => ?_)
    rw [← hlocale, hl, Except.ok.injEq, eq_comm]

/-- Files of texts are gathered exactly if each of them is a document for a locale, and no key has
two values for one locale. -/
theorem exists_gather_texts_iff (hvalue : ∀ e key v, value e = .ok (key, v) ↔ IsEntry e key v) :
    (∃ m, gather sourceSet kind Locale.text (textDeclarations kind value sourceSet root files t) =
      .ok m) ↔ ∃ dss, List.Forall₂ (Declares (IsLocaleOf root) IsEntry t) files dss ∧
        (dss.flatten.map fun d => (d.key, d.qualifier)).Nodup := by
  rw [exists_gather_iff]
  simp only [textDeclarations_eq_map_iff hvalue]
  constructor
  · rintro ⟨_, ⟨dss, rfl, hdss⟩, hnodup⟩
    exact ⟨dss, hdss, hnodup⟩
  · rintro ⟨dss, hdss, hnodup⟩
    exact ⟨_, ⟨dss, rfl, hdss⟩, hnodup⟩

/-- What is gathered of files of texts lists what they declare. -/
theorem lists_of_gather_texts (hvalue : ∀ e key v, value e = .ok (key, v) ↔ IsEntry e key v)
    {m : Declared Locale V} {dss : List (List (Declaration Locale V))}
    (h : gather sourceSet kind Locale.text (textDeclarations kind value sourceSet root files t) =
      .ok m) (hdss : List.Forall₂ (Declares (IsLocaleOf root) IsEntry t) files dss) :
    m.Lists dss.flatten := by
  rw [(textDeclarations_eq_map_iff hvalue).2 ⟨dss, rfl, hdss⟩] at h
  exact (lists_of_gather_map h).2

end

/-! ### What holds of all entries of a file -/

/-- Whether all entries of the document in a file have a property. -/
def EachEntry (P : Xml.Element → Prop) (t : FileTree) (path : Path) : Prop :=
  ∀ text document, t.readText path = .ok text → Xml.read text = .ok document →
    ∀ e ∈ document.elements, P e

omit [DecidableEq Q] in
/-- A file declares values by entries of a narrower form exactly if it declares them and all its
entries have this form. -/
theorem declares_and_iff {IsQualifier : Path → Q → Prop}
    {IsEntry IsStrict : Xml.Element → Key → V → Prop} {P : Xml.Element → Prop}
    (h : ∀ e key v, IsStrict e key v ↔ IsEntry e key v ∧ P e) {t : FileTree} {path : Path}
    {ds : List (Declaration Q V)} : Declares IsQualifier IsStrict t path ds ↔
      Declares IsQualifier IsEntry t path ds ∧ EachEntry P t path := by
  constructor
  · rintro ⟨q, text, document, hq, htext, hdocument, hname, hds⟩
    refine ⟨⟨q, text, document, hq, htext, hdocument, hname, ?_⟩, ?_⟩
    · exact hds.imp fun e d hd => ⟨((h e d.key d.value).1 hd.1).1, hd.2⟩
    · intro text' document' htext' hdocument' e he
      obtain rfl := Except.ok.inj (htext.symm.trans htext')
      obtain rfl := Except.ok.inj (hdocument.symm.trans hdocument')
      obtain ⟨d, -, hd⟩ := exists_of_mem_right hds.flip he
      exact ((h e d.key d.value).1 hd.1).2
  · rintro ⟨⟨q, text, document, hq, htext, hdocument, hname, hds⟩, heach⟩
    refine ⟨q, text, document, hq, htext, hdocument, hname, ?_⟩
    refine forall₂_imp_of_mem hds fun e he d _ hd => ⟨?_, hd.2⟩
    exact (h e d.key d.value).2 ⟨hd.1, heach text document htext hdocument e he⟩

omit [DecidableEq Q] in
/-- The same for several files. -/
theorem forall₂_declares_and_iff {IsQualifier : Path → Q → Prop}
    {IsEntry IsStrict : Xml.Element → Key → V → Prop} {P : Xml.Element → Prop}
    (h : ∀ e key v, IsStrict e key v ↔ IsEntry e key v ∧ P e) {t : FileTree} {files : List Path}
    {dss : List (List (Declaration Q V))} :
    List.Forall₂ (Declares IsQualifier IsStrict t) files dss ↔
      List.Forall₂ (Declares IsQualifier IsEntry t) files dss ∧
        ∀ path ∈ files, EachEntry P t path := by
  constructor
  · intro hdss
    refine ⟨hdss.imp fun path ds hds => ((declares_and_iff h).1 hds).1, fun path hpath => ?_⟩
    obtain ⟨ds, -, hds⟩ := exists_of_mem_right hdss.flip hpath
    exact ((declares_and_iff h).1 hds).2
  · rintro ⟨hdss, heach⟩
    exact forall₂_imp_of_mem hdss fun path hpath ds _ hds =>
      (declares_and_iff h).2 ⟨hds, heach path hpath⟩

omit [DecidableEq Q] in
/-- There are such declarations with a property exactly if there are declarations with it at all, and
all entries of the files have the narrower form. -/
theorem exists_declares_and_iff {IsQualifier : Path → Q → Prop}
    {IsEntry IsStrict : Xml.Element → Key → V → Prop} {P : Xml.Element → Prop}
    (h : ∀ e key v, IsStrict e key v ↔ IsEntry e key v ∧ P e) {t : FileTree} {files : List Path}
    {R : List (List (Declaration Q V)) → Prop} :
    (∃ dss, List.Forall₂ (Declares IsQualifier IsStrict t) files dss ∧ R dss) ↔
      (∃ dss, List.Forall₂ (Declares IsQualifier IsEntry t) files dss ∧ R dss) ∧
        ∀ path ∈ files, EachEntry P t path := by
  simp only [forall₂_declares_and_iff h]
  constructor
  · rintro ⟨dss, ⟨hdss, heach⟩, hR⟩
    exact ⟨⟨dss, hdss, hR⟩, heach⟩
  · rintro ⟨⟨dss, hdss, hR⟩, heach⟩
    exact ⟨dss, ⟨hdss, heach⟩, hR⟩

end ResourceCompiler.Source
