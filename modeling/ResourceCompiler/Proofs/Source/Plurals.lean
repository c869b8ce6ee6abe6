import ResourceCompiler.Proofs.Merging
import ResourceCompiler.Proofs.Sequence
import ResourceCompiler.Proofs.Source.Gathering

/-!
# Plurals with a form for every number

A plural is read from a file only if it has a form for `other`, the category of all numbers that no
other category takes. Merging lays the forms of whole locales over each other and never takes one
away, so that every merged plural has such a form in each of its locales.

* `Kind.Covers`: a value that has a form for every number, in each locale.
* `Kind.Covers.overlay`, `covers_of_mergeFragments`: merging values that do.
* `Source.at?_of_gather`: what is gathered has been declared.
* `Source.covers_of_build`: values that files declare.
-/

namespace ResourceCompiler

/-! ### Merging -/

namespace Kind

/-- Whether a value has a form for every number in each locale: one for `other`, and no category
twice. This only says something of plurals. -/
def Covers : (k : Kind) → k.Value → Prop
  | .strings, _ => True
  | .plurals, v => ∀ l forms, OrderedMap.get? v l = some forms →
      Quantity.other ∈ OrderedMap.keys forms ∧ (OrderedMap.keys forms).Nodup
  | .images, _ => True
  | .colors, _ => True

variable {k : Kind}

/-- Each locale of two values laid over each other is that of one of them. -/
theorem Covers.overlay {u v : k.Value} (hu : k.Covers u) (hv : k.Covers v) :
    k.Covers (k.overlay u v) := by
  cases k with
  | strings => trivial
  | plurals =>
    intro l forms hforms
    have hor : (OrderedMap.get? v l).or (OrderedMap.get? u l) = some forms := by
      rw [← OrderedMap.get?_overlay]
      exact hforms
    rcases Option.or_eq_some_iff.1 hor with hupper | ⟨-, hlower⟩
    · exact hv l forms hupper
    · exact hu l forms hlower
  | images => trivial
  | colors => trivial

theorem covers_of_layered {vs : List k.Value} {v : k.Value} (hvs : ∀ u ∈ vs, k.Covers u)
    (h : k.layered vs = some v) : k.Covers v := by
  induction vs using List.reverseRecOn generalizing v with
  | nil => cases h
  | append_singleton vs w ih =>
    rw [List.forall_mem_append, List.forall_mem_singleton] at hvs
    rw [layered_append, layered_singleton] at h
    cases hlower : k.layered vs with
    | none =>
      rw [hlower, Option.merge_none_left] at h
      exact Option.some.inj h ▸ hvs.2
    | some u =>
      rw [hlower, Option.merge_some_some] at h
      exact Option.some.inj h ▸ (ih hvs.1 hlower).overlay hvs.2

end Kind

/-- **Merging keeps a form for every number.** -/
theorem covers_of_mergeFragments {k : Kind} {fs : List (Fragment k)} {es : List (Entry k)}
    (hfs : ∀ d ∈ fs.flatMap Fragment.entries, k.Covers d.value) (h : mergeFragments fs = .ok es) :
    ∀ e ∈ es, k.Covers e.value := by
  intro e he
  refine Kind.covers_of_layered ?_ (layered_of_mergeFragments h he)
  intro v hv
  obtain ⟨d, hd, hvalue⟩ := List.mem_filterMap.1 hv
  split at hvalue
  · exact Option.some.inj hvalue ▸ hfs d hd
  · cases hvalue

/-! ### Declarations -/

namespace Source

section

variable {Q V : Type} [DecidableEq Q]

theorem at?_of_gatherFrom {twice : Declaration Q V → Path → SourceError} {m n : Declared Q V}
    {ds : List (Except SourceError (Declaration Q V))} (h : gatherFrom twice m ds = .ok n)
    {key : Key} {q : Q} {v : V} {path : Path} (hat : n.at? key q = some (v, path)) :
    m.at? key q = some (v, path) ∨ .ok ⟨key, q, v, path⟩ ∈ ds := by
  induction ds generalizing m with
  | nil =>
    rw [gatherFrom] at h
    rw [Except.ok.inj h]
    exact .inl hat
  | cons d ds ih =>
    cases d with
    | error e => cases h
    | ok d =>
      rw [gatherFrom] at h
      split at h
      · cases h
      · rcases ih h with hbefore | hlater
        · rw [Declared.at?_add] at hbefore
          split at hbefore
          · rename_i hsame
            obtain ⟨rfl, rfl⟩ := hsame
            obtain ⟨rfl, rfl⟩ := Prod.mk.inj (Option.some.inj hbefore)
            exact .inr List.mem_cons_self
          · exact .inl hbefore
        · exact .inr (List.mem_cons_of_mem _ hlater)

/-- **What is gathered has been declared.** -/
theorem at?_of_gather {sourceSet : SourceSetName} {kind : Kind} {qualifierText : Q → String}
    {ds : List (Except SourceError (Declaration Q V))} {m : Declared Q V}
    (h : gather sourceSet kind qualifierText ds = .ok m) {key : Key} {q : Q} {v : V} {path : Path}
    (hat : m.at? key q = some (v, path)) : .ok ⟨key, q, v, path⟩ ∈ ds := by
  rcases at?_of_gatherFrom h hat with hempty | hmem
  · cases hempty
  · exact hmem

end

/-- A declaration of a text is the value of an element. -/
theorem exists_element_of_mem {V : Type} {kind : Kind}
    {value : Xml.Element → Except Fault (Key × V)} {sourceSet : SourceSetName} {root : Path}
    {files : List Path} {t : FileTree} {d : Declaration Locale V}
    (h : .ok d ∈ textDeclarations kind value sourceSet root files t) :
    ∃ e, value e = .ok (d.key, d.value) := by
  obtain ⟨path, -, hd⟩ := List.mem_flatMap.1 h
  dsimp only at hd
  split at hd
  · cases List.mem_singleton.1 hd
  · unfold Place.declarations at hd
    split at hd
    · cases List.mem_singleton.1 hd
    · obtain ⟨e, -, he⟩ := List.mem_map.1 hd
      split at he
      · rename_i key v hvalue
        rw [← Except.ok.inj he]
        exact ⟨e, hvalue⟩
      · cases he

/-! ### Plurals -/

variable {strict : Bool}

theorem other_mem_of_formsOf {key : Key} {items : List Xml.Element} {forms : PluralForms}
    (h : formsOf strict key items = .ok forms) : Quantity.other ∈ OrderedMap.keys forms := by
  obtain ⟨read, -, h⟩ := bind_eq_ok h
  split at h
  · rename_i hother
    rw [← Except.ok.inj h]
    exact OrderedMap.contains_iff.1 hother
  · cases h

theorem other_mem_of_pluralOf {e : Xml.Element} {key : Key} {forms : PluralForms}
    (h : pluralOf strict e = .ok (key, forms)) : Quantity.other ∈ OrderedMap.keys forms := by
  obtain ⟨⟨⟩, -, h⟩ := bind_eq_ok h
  obtain ⟨name, -, h⟩ := bind_eq_ok h
  obtain ⟨read, hread, h⟩ := bind_eq_ok h
  rw [← (Prod.mk.inj (Except.ok.inj h)).2]
  exact other_mem_of_formsOf hread

/-- **What files declare has a form for every number.** -/
theorem covers_of_build {sourceSet : SourceSetName} {root : Path} {files : List Path}
    {t : FileTree} {k : Kind} {es : List (Entry k)}
    (h : build strict sourceSet root files t k = .ok es) : ∀ e ∈ es, k.Covers e.value := by
  intro e he
  cases k with
  | strings => trivial
  | images => trivial
  | colors => trivial
  | plurals =>
    obtain ⟨m, hm, h⟩ := bind_eq_ok h
    rw [← Except.ok.inj h, entriesOf] at he
    obtain ⟨⟨key, values⟩, hentry, hvalue⟩ := List.mem_filterMap.1 he
    obtain rfl := Option.some.inj hvalue
    intro l forms hforms
    refine ⟨?_, OrderedMap.nodup_keys forms⟩
    have hget : (withoutPaths values).get? l = some forms := hforms
    rw [get?_withoutPaths, Option.map_eq_some_iff] at hget
    obtain ⟨⟨read, path⟩, hvalues, rfl⟩ := hget
    have hat : m.at? key l = some (read, path) := by
      rw [Declared.at?, OrderedMap.mem_entries_iff.1 hentry]
      exact hvalues
    obtain ⟨element, helement⟩ := exists_element_of_mem (at?_of_gather hm hat)
    exact other_mem_of_pluralOf helement

end Source

end ResourceCompiler
