import Mathlib.Data.List.Nodup
import ResourceCompiler.Proofs.Naming
import ResourceCompiler.Source.Build

/-!
# What files declare

Declarations that name no pair of a key and a qualifier twice are gathered without a fault, and
nothing is lost or added: each key has under each qualifier what is declared for both.

* `Declared.Holds`: a map that holds exactly the given declarations.
* `Declared.Holds.add`, `gather_eq_ok`: one more declaration, and all declarations.
* `build_strings_eq_ok`: the strings that files declare.
* `Place.resources_eq_ok`, `Place.declarations_eq_map`, `Place.locale_eq_ok`: what a file declares,
  and the locale of a file in the directory of a locale.
-/

namespace ResourceCompiler.Source

open OrderedMap

variable {Q V : Type} [DecidableEq Q]

/-! ### Declarations -/

/-- What is declared for a key and a qualifier, with the file that declares it. -/
def Declared.at? (m : Declared Q V) (key : Key) (qualifier : Q) : Option (V × Path) :=
  (m.get? key).bind fun values => values.get? qualifier

/-- Whether a map holds exactly the given declarations. -/
structure Declared.Holds (m : Declared Q V) (ds : List (Declaration Q V)) : Prop where
  mem_keys : ∀ key, key ∈ m.keys ↔ ∃ d ∈ ds, d.key = key
  at?_eq : ∀ key q v path, m.at? key q = some (v, path) ↔ ⟨key, q, v, path⟩ ∈ ds

namespace Declared

variable {m : Declared Q V} {d : Declaration Q V} {ds : List (Declaration Q V)}

theorem holds_empty : Holds (.empty : Declared Q V) [] where
  mem_keys := fun _ => iff_of_false List.not_mem_nil fun ⟨_, hd, _⟩ => List.not_mem_nil hd
  at?_eq := fun _ _ _ _ => iff_of_false (fun h => by cases h) List.not_mem_nil

/-- A declaration only changes what there is for its key and its qualifier. -/
theorem at?_add (m : Declared Q V) (d : Declaration Q V) (key : Key) (q : Q) :
    (m.add d).at? key q =
      if d.key = key ∧ d.qualifier = q then some (d.value, d.path) else m.at? key q := by
  rw [at?, add, get?_insert]
  by_cases hkey : d.key = key
  · subst hkey
    rw [if_pos rfl, Option.bind_some, get?_insert]
    by_cases hq : d.qualifier = q
    · rw [if_pos hq, if_pos ⟨rfl, hq⟩]
    · rw [if_neg hq, if_neg fun h => hq h.2, at?]
      cases m.get? d.key with
      | none => rfl
      | some values => rfl
  · rw [if_neg hkey, if_neg fun h => hkey h.1, at?]

/-- Whether no declaration is for the key and the qualifier of another one. -/
def Fresh (d : Declaration Q V) (ds : List (Declaration Q V)) : Prop :=
  ∀ x ∈ ds, x.key = d.key → x.qualifier ≠ d.qualifier

theorem Holds.at?_eq_none (h : m.Holds ds) (hd : Fresh d ds) : m.at? d.key d.qualifier = none := by
  cases hat : m.at? d.key d.qualifier with
  | none => rfl
  | some e =>
    have hmem := (h.at?_eq d.key d.qualifier e.1 e.2).1 hat
    exact (hd ⟨d.key, d.qualifier, e.1, e.2⟩ hmem rfl rfl).elim

theorem Holds.add (h : m.Holds ds) (hd : Fresh d ds) : (m.add d).Holds (ds ++ [d]) where
  mem_keys := by
    intro key
    rw [Declared.add, mem_keys_insert, h.mem_keys]
    simp only [List.mem_append, List.mem_singleton, or_and_right, exists_or, exists_eq_left]
    exact or_congr_right eq_comm
  at?_eq := by
    intro key q v path
    rw [at?_add, List.mem_append, List.mem_singleton]
    by_cases hsame : d.key = key ∧ d.qualifier = q
    · obtain ⟨rfl, rfl⟩ := hsame
      have hnew (w : V) (path : Path) : (⟨d.key, d.qualifier, w, path⟩ : Declaration Q V) ∉ ds :=
        fun hmem => hd _ hmem rfl rfl
      rw [if_pos ⟨rfl, rfl⟩, Option.some.injEq, Prod.mk.injEq, or_iff_right (hnew v path)]
      constructor
      · rintro ⟨rfl, rfl⟩
        rfl
      · intro heq
        exact ⟨congrArg Declaration.value heq.symm, congrArg Declaration.path heq.symm⟩
    · rw [if_neg hsame, h.at?_eq, or_iff_left]
      rintro rfl
      exact hsame ⟨rfl, rfl⟩

end Declared

theorem gatherFrom_eq_ok (twice : Declaration Q V → Path → SourceError) {m : Declared Q V}
    {before ds : List (Declaration Q V)} (hm : m.Holds before)
    (h : ((before ++ ds).map fun d => (d.key, d.qualifier)).Nodup) :
    ∃ n, gatherFrom twice m (ds.map .ok) = .ok n ∧ n.Holds (before ++ ds) := by
  induction ds generalizing m before with
  | nil => exact ⟨m, rfl, by rwa [List.append_nil]⟩
  | cons d ds ih =>
    have hfresh : Declared.Fresh d before := by
      intro x hx hkey hqualifier
      rw [List.map_append, List.nodup_append] at h
      exact h.2.2 _ (List.mem_map_of_mem hx) _ (List.mem_map_of_mem List.mem_cons_self)
        (Prod.ext hkey hqualifier)
    have hnone : m.declaredIn? d.key d.qualifier = none := by
      have hat := hm.at?_eq_none hfresh
      rw [Declared.at?] at hat
      rw [Declared.declaredIn?, hat]
      rfl
    have hconcat : before ++ d :: ds = (before ++ [d]) ++ ds := by
      rw [List.append_assoc, List.singleton_append]
    obtain ⟨n, hn, hholds⟩ := ih (hm.add hfresh) (hconcat ▸ h)
    refine ⟨n, ?_, hconcat ▸ hholds⟩
    rw [List.map_cons, gatherFrom, hnone]
    exact hn

/-- **Declarations of different things are all gathered.** -/
theorem gather_eq_ok (sourceSet : SourceSetName) (kind : Kind) (qualifierText : Q → String)
    {ds : List (Declaration Q V)} (h : (ds.map fun d => (d.key, d.qualifier)).Nodup) :
    ∃ m, gather sourceSet kind qualifierText (ds.map .ok) = .ok m ∧ m.Holds ds :=
  gatherFrom_eq_ok _ Declared.holds_empty h

/-! ### Strings -/

theorem get?_withoutPaths (m : OrderedMap Q (V × Path)) (q : Q) :
    (withoutPaths m).get? q = (m.get? q).map Prod.fst := by
  have h : ∀ es : List (Q × (V × Path)), Entries.find? q (es.map fun e => (e.1, e.2.1)) =
      (Entries.find? q es).map Prod.fst := by
    intro es
    induction es with
    | nil => rfl
    | cons e es ih =>
      rw [List.map_cons, Entries.find?, Entries.find?, ih]
      split
      · rfl
      · rfl
  exact h m.entries

/-- Strings that are declared once for each locale are built as they are declared. -/
theorem build_strings_eq_ok {strict : Bool} {sourceSet : SourceSetName} {root : Path}
    {files : List Path} {t : FileTree} {ds : List (Declaration Locale String)}
    (hfiles : textDeclarations .strings (stringOf strict) sourceSet root files t = ds.map .ok)
    (h : (ds.map fun d => (d.key, d.qualifier)).Nodup) :
    ∃ built, build strict sourceSet root files t .strings = .ok built ∧
      (built.map Entry.key).Nodup ∧
      (∀ key, key ∈ built.map Entry.key ↔ ∃ d ∈ ds, d.key = key) ∧
      ∀ b ∈ built, ∀ l text, OrderedMap.get? b.value l = some text ↔
        ∃ path, ⟨b.key, l, text, path⟩ ∈ ds := by
  obtain ⟨m, hm, hholds⟩ := gather_eq_ok sourceSet .strings Locale.text h
  have hbuilt : build strict sourceSet root files t .strings =
      .ok (entriesOf .strings (fun vs => some (withoutPaths vs)) m) := by
    rw [build, hfiles, hm]
    rfl
  have hentries : entriesOf .strings (fun vs => some (withoutPaths vs)) m =
      m.entries.map fun e => ⟨e.1, withoutPaths e.2⟩ := by
    rw [entriesOf]
    exact congrFun List.filterMap_eq_map m.entries
  have hkeys : (m.entries.map fun e => (⟨e.1, withoutPaths e.2⟩ : Entry .strings)).map Entry.key =
      m.keys := by
    rw [List.map_map]
    rfl
  rw [hentries] at hbuilt
  refine ⟨_, hbuilt, hkeys ▸ nodup_keys m, fun key => hkeys ▸ hholds.mem_keys key, ?_⟩
  intro b hb l text
  obtain ⟨e, he, rfl⟩ := List.mem_map.1 hb
  have hat : m.at? e.1 l = e.2.get? l := by
    rw [Declared.at?, mem_entries_iff.1 he]
    rfl
  show (withoutPaths e.2).get? l = some text ↔ _
  rw [get?_withoutPaths, Option.map_eq_some_iff, ← hat]
  constructor
  · rintro ⟨⟨v, path⟩, hv, rfl⟩
    exact ⟨path, (hholds.at?_eq _ _ _ _).1 hv⟩
  · rintro ⟨path, hd⟩
    exact ⟨(text, path), (hholds.at?_eq _ _ _ _).2 hd, rfl⟩

/-! ### Files -/

/-- The entries of a document are the elements of its root. -/
theorem Place.resources_eq_ok {p : Place} {t : FileTree} {text : String} {root : Xml.Element}
    (hread : t.readText p.path = .ok text) (hdocument : Xml.read text = .ok root)
    (hname : root.name = "resources") : p.resources t = .ok root.elements := by
  have hwrong : ¬ root.name ≠ "resources" := fun hne => hne hname
  rw [Place.resources, hread]
  simp only [Except.mapError, bind, Except.bind, hdocument, if_neg hwrong]
  rfl

omit [DecidableEq Q] in
/-- A document whose elements all have a value declares these values. -/
theorem Place.declarations_eq_map {value : Xml.Element → Except Fault (Key × V)}
    {element : Key × V → Xml.Element} {items : List (Key × V)}
    (h : ∀ e ∈ items, value (element e) = .ok e) (p : Place) (q : Q) :
    p.declarations q value (.ok (items.map element)) =
      items.map fun e => .ok ⟨e.1, q, e.2, p.path⟩ := by
  rw [Place.declarations, List.map_map]
  refine List.map_congr_left fun e he => ?_
  rw [Function.comp_apply, h e he]


open ResourceCompiler.Path

/-- A file in the directory of a locale declares for that locale. -/
theorem Place.locale_eq_ok (sourceSet : SourceSetName) (kind : Kind) (root : Path) {l : Locale}
    (hdirectory : IsName l.text) {name : String} (hname : IsName name) :
    (⟨sourceSet, kind, root / l.text / name⟩ : Place).locale root = .ok l := by
  have hstrides : (root / l.text / name).strides =
      (root.strides ++ [.down l.text]) ++ [.down name] := by
    rw [strides_div _ hname, strides_div _ hdirectory]
  obtain ⟨parent, hparent⟩ := exists_parent?_eq (p := root / l.text / name)
    (by rw [hstrides]; exact List.append_ne_nil_of_right_ne_nil _ (List.cons_ne_nil _ _))
  have hdown : parent.strides = root.strides ++ [.down l.text] := by
    rw [strides_of_parent? hparent, hstrides, List.dropLast_concat]
  have hother : parent.same root = false := by
    cases hsame : parent.same root with
    | false => rfl
    | true =>
      have hlength := congrArg List.length (hdown.symm.trans (strides_of_same hsame))
      rw [List.length_append] at hlength
      exact absurd hlength (Nat.succ_ne_self _)
  have hfile : parent.fileName? = some l.text := by
    rw [fileName?_eq, hdown, List.getLast?_concat]
  rw [Place.locale, hparent]
  simp only [Option.getD_some, hother, hfile, Locale.ofText?_text]
  rfl

end ResourceCompiler.Source
