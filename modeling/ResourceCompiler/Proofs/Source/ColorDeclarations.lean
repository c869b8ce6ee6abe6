import Mathlib.Data.List.DropRight
import ResourceCompiler.Proofs.Source.Documents

/-!
# Colors as they are declared

Colors are built from files exactly if each file is a document of color entries, and no key has two
of them. They then list what the files declare. A color entry holds a color as its text, or elements
that are called for the light and the dark appearance. Of several elements for one appearance the
first one counts, and what the others hold is dropped.

* `HasColors`, `IsColor`: a color entry, said without reading it in steps, for the elements that are
  taken to describe its appearances.
* `First`, `Sole`: the first of the elements of an appearance, or its only one.
* `colorOf_eq_ok_iff`: when a color entry is read.
* `build_colors_accepts`: when colors are built, what they are, and which of them drop a color.
-/

namespace ResourceCompiler

/-! ### Blanks around a color -/

/-- A text without the blanks at its ends has none at its ends. -/
theorem Text.trimmed_trimmed (cs : List Char) : trimmed (trimmed cs) = trimmed cs := by
  have hends : trimmed cs = (cs.dropWhile isBlank).rdropWhile isBlank := rfl
  refine trimmed_eq_self ?_ ?_
  · intro c hc
    obtain ⟨rest, hrest⟩ := List.rdropWhile_prefix isBlank (cs.dropWhile isBlank)
    have hfirst := List.head?_dropWhile_not isBlank cs
    rw [← hrest, ← hends, List.head?_append, Option.mem_def.1 hc] at hfirst
    exact hfirst
  · intro c hc
    obtain ⟨hne, rfl⟩ := List.mem_getLast?_eq_getLast hc
    exact Bool.eq_false_iff.2 (List.rdropWhile_last_not isBlank (cs.dropWhile isBlank) hne)

theorem Color.ofText?_trim_eq_ok_iff {s : String} {c : Color} :
    ofText? (Text.trim s) = .ok c ↔ ofText? s = .ok c := by
  rw [ofText?_eq_ok_iff, Text.toList_trim, Text.trimmed_trimmed, ofText?_eq_ok_iff]

namespace Source

open OrderedMap

/-! ### What an entry declares -/

/-- The elements of a color entry that are called for an appearance. -/
def appearance (name : String) (e : Xml.Element) : List Xml.Element :=
  e.elements.filter fun c => c.name == name

/-- Whether an element is the first of several. -/
def First (cs : List Xml.Element) (c : Xml.Element) : Prop := cs.head? = some c

/-- Whether an element is the only one. -/
def Sole (cs : List Xml.Element) (c : Xml.Element) : Prop := cs = [c]

/-- Whether an element holds a color value, as its text or by elements of the light and of the dark
appearance and no others. `Picks` tells which element of an appearance describes it. -/
inductive HasColors (Picks : List Xml.Element → Xml.Element → Prop) (e : Xml.Element) :
    ColorValue → Prop where
  | single {c : Color} (helements : e.elements = []) (hcolor : Color.ofText? e.text = .ok c) :
      HasColors Picks e (.single c)
  | themed {light dark : Xml.Element} {l d : Color}
      (helements : ∀ c ∈ e.elements, c.name = "light" ∨ c.name = "dark")
      (hlight : Picks (appearance "light" e) light) (hdark : Picks (appearance "dark" e) dark)
      (hl : Color.ofText? light.text = .ok l) (hd : Color.ofText? dark.text = .ok d) :
      HasColors Picks e (.themed l d)

/-- Whether an element is a color entry of the given key and value. -/
structure IsColor (Picks : List Xml.Element → Xml.Element → Prop) (e : Xml.Element) (key : Key)
    (value : ColorValue) : Prop where
  name_eq : e.name = "color"
  key_eq : e.attribute? "name" = some key.text
  value_eq : HasColors Picks e value

/-! ### Reading an entry -/

variable {key : Key}

theorem colorText_eq_ok_iff {text : String} {c : Color} :
    colorText key text = .ok c ↔ Color.ofText? text = .ok c := by
  rw [colorText, mapError_eq_ok_iff, Color.ofText?_trim_eq_ok_iff]

theorem themeColor_eq_ok_iff {e : Xml.Element} {name : String} {c : Color} :
    themeColor key e.elements name = .ok c ↔
      ∃ theme, First (appearance name e) theme ∧ Color.ofText? theme.text = .ok c := by
  simp only [First, appearance, List.head?_filter]
  rw [themeColor]
  cases e.elements.find? fun c => c.name == name with
  | none => exact iff_of_false (fun h => by cases h) fun ⟨_, h, _⟩ => by cases h
  | some theme =>
    simp only [Option.some.injEq, exists_eq_left']
    exact colorText_eq_ok_iff

theorem colorValueOf_eq_ok_iff {e : Xml.Element} {value : ColorValue} :
    colorValueOf key e = .ok value ↔ HasColors First e value := by
  have hthemes : e.elements.find? (fun c => c.name != "light" && c.name != "dark") = none ↔
      ∀ c ∈ e.elements, c.name = "light" ∨ c.name = "dark" := by
    simp only [List.find?_eq_none, Bool.and_eq_true, bne_iff_ne, not_and_or, not_not]
  constructor
  · intro h
    rw [colorValueOf] at h
    split at h
    · rename_i helements
      obtain ⟨c, hc, h⟩ := bind_eq_ok h
      rw [← Except.ok.inj h]
      exact .single helements (colorText_eq_ok_iff.1 hc)
    · split at h
      · cases h
      · rename_i hfind
        obtain ⟨l, hl, h⟩ := bind_eq_ok h
        obtain ⟨d, hd, h⟩ := bind_eq_ok h
        obtain ⟨light, hlight, hl⟩ := themeColor_eq_ok_iff.1 hl
        obtain ⟨dark, hdark, hd⟩ := themeColor_eq_ok_iff.1 hd
        rw [← Except.ok.inj h]
        exact .themed (hthemes.1 hfind) hlight hdark hl hd
  · intro h
    cases h with
    | single helements hcolor =>
      rw [colorValueOf, helements]
      simp only [colorText_eq_ok_iff.2 hcolor]
      rfl
    | @themed light dark l d helements hlight hdark hl hd =>
      have hl : themeColor key e.elements "light" = .ok l :=
        themeColor_eq_ok_iff.2 ⟨light, hlight, hl⟩
      have hd : themeColor key e.elements "dark" = .ok d :=
        themeColor_eq_ok_iff.2 ⟨dark, hdark, hd⟩
      rw [colorValueOf]
      split
      · rename_i hnil
        rw [hnil] at hl
        cases hl
      · rw [hthemes.2 helements]
        simp only [hl, hd]
        rfl

theorem colorOf_eq_ok_iff {e : Xml.Element} {value : ColorValue} :
    colorOf e = .ok (key, value) ↔ IsColor First e key value := by
  constructor
  · intro h
    obtain ⟨⟨⟩, hname, h⟩ := bind_eq_ok h
    obtain ⟨key', hkey, h⟩ := bind_eq_ok h
    obtain ⟨value', hvalue, h⟩ := bind_eq_ok h
    obtain ⟨rfl, rfl⟩ := Prod.mk.inj (Except.ok.inj h)
    exact ⟨expectElement_eq_ok_iff.1 hname, keyOf_eq_ok_iff.1 hkey,
      colorValueOf_eq_ok_iff.1 hvalue⟩
  · rintro ⟨hname, hkey, hvalue⟩
    rw [colorOf, expectElement_eq_ok_iff.2 hname, keyOf_eq_ok_iff.2 hkey]
    show (colorValueOf key e >>= fun value => Except.ok (key, value)) = .ok (key, value)
    rw [colorValueOf_eq_ok_iff.2 hvalue]
    rfl

/-- An appearance has only one element exactly if it has a first one, and not several. -/
theorem sole_iff {cs : List Xml.Element} {c : Xml.Element} :
    Sole cs c ↔ First cs c ∧ cs.length ≤ 1 := by
  match cs with
  | [] => exact iff_of_false (fun h => by cases h) fun h => by cases h.1
  | [c'] => simp [Sole, First]
  | c' :: c'' :: rest => exact iff_of_false (fun h => by cases h) fun h => by simp at h

theorem isColor_sole_iff (e : Xml.Element) (key : Key) (value : ColorValue) :
    IsColor Sole e key value ↔
      IsColor First e key value ∧ ∀ name, (appearance name e).length ≤ 1 := by
  constructor
  · rintro ⟨hname, hkey, hvalue⟩
    cases hvalue with
    | single helements hcolor =>
      refine ⟨⟨hname, hkey, .single helements hcolor⟩, fun name => ?_⟩
      rw [appearance, helements]
      exact Nat.zero_le 1
    | @themed light dark l d helements hlight hdark hl hd =>
      have hlight := sole_iff.1 hlight
      have hdark := sole_iff.1 hdark
      refine ⟨⟨hname, hkey, .themed helements hlight.1 hdark.1 hl hd⟩, fun name => ?_⟩
      rw [appearance]
      cases happearance : e.elements.filter fun c => c.name == name with
      | nil => exact Nat.zero_le 1
      | cons c rest =>
        obtain ⟨hc, hname⟩ := List.mem_filter.1 (happearance ▸ List.mem_cons_self)
        rw [← happearance]
        rcases helements c hc with hlight' | hdark'
        · rw [← eq_of_beq hname, hlight']
          exact hlight.2
        · rw [← eq_of_beq hname, hdark']
          exact hdark.2
  · rintro ⟨⟨hname, hkey, hvalue⟩, hlength⟩
    refine ⟨hname, hkey, ?_⟩
    cases hvalue with
    | single helements hcolor => exact .single helements hcolor
    | themed helements hlight hdark hl hd =>
      exact .themed helements (sole_iff.2 ⟨hlight, hlength _⟩) (sole_iff.2 ⟨hdark, hlength _⟩) hl hd

/-! ### What is built -/

/-- Colors have no qualifier, wherever their file is. -/
def Unqualified (_ : Path) (_ : Unit) : Prop := True

theorem colorDeclarations_eq_map_iff {sourceSet : SourceSetName} {files : List Path} {t : FileTree}
    {ds : List (Declaration Unit ColorValue)} :
    colorDeclarations sourceSet files t = ds.map .ok ↔ ∃ dss, ds = dss.flatten ∧
      List.Forall₂ (Declares Unqualified (IsColor First) t) files dss :=
  flatMap_eq_map_ok_iff fun _ _ =>
    (Place.declarations_resources_iff fun _ _ _ => colorOf_eq_ok_iff).trans
      (declares_congr fun _ => iff_true_intro rfl)

/-- Values without a qualifier are of different pairs exactly if they are of different keys. -/
theorem nodup_keys_iff {V : Type} {ds : List (Declaration Unit V)} :
    (ds.map fun d => (d.key, d.qualifier)).Nodup ↔ (ds.map Declaration.key).Nodup := by
  have hpair : (ds.map fun d => (d.key, d.qualifier)) =
      (ds.map Declaration.key).map fun key => (key, ()) := by
    rw [List.map_map]
    rfl
  rw [hpair]
  exact List.nodup_map_iff fun _ _ h => (Prod.mk.inj h).1

/-- The value of a key is the one that is declared for it. -/
theorem colorValue_of_lists {m : Declared Unit ColorValue} {ds : List (Declaration Unit ColorValue)}
    (h : m.Lists ds) (hnodup : (ds.map Declaration.key).Nodup) {d : Declaration Unit ColorValue}
    (hd : d ∈ ds) {values : OrderedMap Unit (ColorValue × Path)}
    (hvalues : (d.key, values) ∈ m.entries) :
    (values.entries.head?.map fun e => e.2.1) = some d.value := by
  have hhead : (ds.filter fun x => x.key = d.key).head? = some d := by
    cases hfilter : ds.filter fun x => x.key = d.key with
    | nil => exact absurd hfilter (List.ne_nil_of_mem (List.mem_filter.2 ⟨hd, decide_eq_true rfl⟩))
    | cons x rest =>
      obtain ⟨hx, hkey⟩ := List.mem_filter.1 (hfilter ▸ List.mem_cons_self)
      exact congrArg some (List.inj_on_of_nodup_map hnodup hx hd (of_decide_eq_true hkey))
  rw [h.entries_eq _ _ (mem_entries_iff.1 hvalues), List.head?_map, hhead]
  rfl

/-- The entries of a map are the declarations that it lists, if these are of different keys. -/
theorem colorEntries_of_lists {m : Declared Unit ColorValue}
    {ds : List (Declaration Unit ColorValue)} (h : m.Lists ds)
    (hnodup : (ds.map Declaration.key).Nodup) :
    entriesOf .colors (fun vs => vs.entries.head?.map fun e => e.2.1) m =
      ds.map fun d => ⟨d.key, d.value⟩ := by
  have hkeys : m.entries.map Prod.fst = ds.map Declaration.key :=
    h.keys_eq.trans (eraseDups_of_nodup hnodup)
  rw [← List.forall₂_eq_eq_eq, List.forall₂_map_left_iff, List.forall₂_map_right_iff] at hkeys
  refine filterMap_eq_map_of_forall₂ (forall₂_imp_of_mem hkeys ?_)
  rintro ⟨key, values⟩ he d hd rfl
  exact Option.map_eq_some_iff.2 ⟨d.value, colorValue_of_lists h hnodup hd he, rfl⟩

/-- **Colors are built as they are declared by the first elements of their appearances.** Building
succeeds if and only if every file is a document of color entries, and no key is declared twice over
all files; it gives the declared colors in the order of their declaration. A list of files declares
colors by the only elements of their appearances if and only if it is one that colors are built from,
and no entry has two elements for one appearance. -/
theorem build_colors_accepts (strict : Bool) (sourceSet : SourceSetName) (root : Path)
    (files : List Path) (t : FileTree) :
    ((∃ es, build strict sourceSet root files t .colors = .ok es) ↔
      ∃ dss, List.Forall₂ (Declares Unqualified (IsColor First) t) files dss ∧
        (dss.flatten.map Declaration.key).Nodup) ∧
    (∀ es dss, build strict sourceSet root files t .colors = .ok es →
      List.Forall₂ (Declares Unqualified (IsColor First) t) files dss →
      es = dss.flatten.map fun d => ⟨d.key, d.value⟩) ∧
    ((∃ dss, List.Forall₂ (Declares Unqualified (IsColor Sole) t) files dss ∧
        (dss.flatten.map Declaration.key).Nodup) ↔
      (∃ es, build strict sourceSet root files t .colors = .ok es) ∧
        ∀ path ∈ files, EachEntry (fun e => ∀ name, (appearance name e).length ≤ 1) t path) := by
  have hbuild : (∃ es, build strict sourceSet root files t .colors = .ok es) ↔
      ∃ dss, List.Forall₂ (Declares Unqualified (IsColor First) t) files dss ∧
        (dss.flatten.map Declaration.key).Nodup := by
    refine exists_bind_pure_iff.trans (exists_gather_iff.trans ?_)
    simp only [colorDeclarations_eq_map_iff, nodup_keys_iff]
    constructor
    · rintro ⟨_, ⟨dss, rfl, hdss⟩, hnodup⟩
      exact ⟨dss, hdss, hnodup⟩
    · rintro ⟨dss, hdss, hnodup⟩
      exact ⟨_, ⟨dss, rfl, hdss⟩, hnodup⟩
  refine ⟨hbuild, fun es dss h hdss => ?_, ?_⟩
  · obtain ⟨m, hm, h⟩ := bind_eq_ok h
    rw [colorDeclarations_eq_map_iff.2 ⟨dss, rfl, hdss⟩] at hm
    obtain ⟨hnodup, hlists⟩ := lists_of_gather_map hm
    rw [← Except.ok.inj h]
    exact colorEntries_of_lists hlists (nodup_keys_iff.1 hnodup)
  · rw [hbuild]
    exact exists_declares_and_iff isColor_sole_iff

/-! ### A color with two light appearances -/

namespace Sky

def common : SourceSetName := ⟨"skyMain", by decide⟩

def files : List Path := [⟨"res/colors.xml"⟩]

def document : String :=
  "<resources><color name=\"noon\"><light>#FFFFFF</light><light>#000000</light>" ++
    "<dark>#111111</dark></color></resources>"

def tree : FileTree where
  nodes := OrderedMap.ofList [(["res"], .directory), (["res", "colors.xml"],
    .file document.toUTF8)]
  rooted := by decide +kernel

end Sky

/-- The second light color is dropped. -/
theorem build_colors_accepts_sky :
    ∃ es dss, build false Sky.common ⟨"res"⟩ Sky.files Sky.tree .colors = .ok es ∧
      List.Forall₂ (Declares Unqualified (IsColor First) Sky.tree) Sky.files dss ∧
      es = dss.flatten.map (fun d => ⟨d.key, d.value⟩) ∧
      es.map (fun e => e.key.text) = ["noon"] ∧
      ¬ ∃ dss, List.Forall₂ (Declares Unqualified (IsColor Sole) Sky.tree) Sky.files dss ∧
          (dss.flatten.map Declaration.key).Nodup := by
  obtain ⟨hbuild, hentries, hsole⟩ := build_colors_accepts false Sky.common ⟨"res"⟩ Sky.files Sky.tree
  obtain ⟨es, hes, hkeys⟩ : ∃ es,
      build false Sky.common ⟨"res"⟩ Sky.files Sky.tree .colors = .ok es ∧
        es.map (fun e => e.key.text) = ["noon"] := exists_of_toOption_map (by decide +kernel)
  obtain ⟨dss, hdss, -⟩ := hbuild.1 ⟨es, hes⟩
  refine ⟨es, dss, hes, hdss, hentries es dss hes hdss, hkeys, fun hall => ?_⟩
  have htext : Sky.tree.readText ⟨"res/colors.xml"⟩ = .ok Sky.document := by decide +kernel
  obtain ⟨read, hread, hlight⟩ : ∃ read, Xml.read Sky.document = .ok read ∧
      read.elements.map (fun e => (appearance "light" e).length) = [2] :=
    exists_of_toOption_map (by decide +kernel)
  have hsingle := (hsole.1 hall).2 _ List.mem_cons_self _ _ htext hread
  obtain ⟨e, he, htwo⟩ := List.mem_map.1 (hlight ▸ List.mem_singleton_self 2)
  exact absurd (htwo ▸ hsingle e he "light") (by decide)

end Source

end ResourceCompiler
