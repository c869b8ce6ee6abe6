import ResourceCompiler.Proofs.Overlay

/-!
# Merging a sequence of declarations

Merging fragments is declaring their entries one after the other. What is known of a key after
some declarations is what was known before with the values of these declarations laid over it, so
that declarations can be merged in parts.

* `Merged.declareAll`, `Merged.ofFragments_eq_declareAll`.
* `Merged.keys_declareAll`, `Merged.value?_declareAll`, `Merged.source?_declareAll`: the keys, the
  values and the last source sets after a sequence of declarations.
* `keys_of_mergeFragments`, `layered_of_mergeFragments`: the entries that merging gives.
-/

namespace ResourceCompiler

variable {k : Kind}

/-! ### Sequences of declarations -/

/-- An entry with the source set that declares it. -/
abbrev Declaring (k : Kind) := SourceSetName × Entry k

/-- The declarations of fragments, in order. -/
def declarations (fs : List (Fragment k)) : List (Declaring k) :=
  fs.flatMap fun f => f.entries.map fun e => (f.sourceSet, e)

theorem declarations_cons (f : Fragment k) (fs : List (Fragment k)) :
    declarations (f :: fs) = (f.entries.map fun e => (f.sourceSet, e)) ++ declarations fs :=
  List.flatMap_cons

theorem declarations_append (fs gs : List (Fragment k)) :
    declarations (fs ++ gs) = declarations fs ++ declarations gs :=
  List.flatMap_append

theorem map_snd_declarations (fs : List (Fragment k)) :
    (declarations fs).map Prod.snd = fs.flatMap Fragment.entries := by
  rw [declarations, List.map_flatMap]
  congr 1
  funext f
  rw [List.map_map]
  exact List.map_id f.entries

/-- The values that entries have for a key, in order. -/
def valuesOf (key : Key) (es : List (Entry k)) : List k.Value :=
  es.filterMap fun e => if e.key = key then some e.value else none

theorem valuesOf_append (key : Key) (es fs : List (Entry k)) :
    valuesOf key (es ++ fs) = valuesOf key es ++ valuesOf key fs :=
  List.filterMap_append

theorem valuesOf_eq_nil_iff {key : Key} {es : List (Entry k)} :
    valuesOf key es = [] ↔ key ∉ es.map Entry.key := by
  simp only [valuesOf, List.filterMap_eq_nil_iff, List.mem_map, not_exists, not_and]
  constructor
  · intro h e he hk
    have hnone := h e he
    rw [if_pos hk] at hnone
    cases hnone
  · intro h e he
    exact if_neg (h e he)

namespace Merged

/-- A sequence of declarations. -/
def declareAll (m : Merged k) (ds : List (Declaring k)) : Merged k :=
  ds.foldl (fun m d => m.declare d.1 d.2) m

theorem declareAll_cons (m : Merged k) (d : Declaring k) (ds : List (Declaring k)) :
    m.declareAll (d :: ds) = (m.declare d.1 d.2).declareAll ds := rfl

theorem declareAll_append (m : Merged k) (cs ds : List (Declaring k)) :
    m.declareAll (cs ++ ds) = (m.declareAll cs).declareAll ds :=
  List.foldl_append

theorem foldl_add_eq_declareAll (m : Merged k) (fs : List (Fragment k)) :
    fs.foldl Merged.add m = m.declareAll (declarations fs) := by
  induction fs generalizing m with
  | nil => rfl
  | cons f fs ih =>
    rw [List.foldl_cons, ih, declarations_cons, declareAll_append]
    congr 1
    rw [Merged.add, declareAll, List.foldl_map]

theorem ofFragments_eq_declareAll (fs : List (Fragment k)) :
    ofFragments fs = declareAll .empty (declarations fs) :=
  foldl_add_eq_declareAll .empty fs

/-! ### What is known of a key -/

/-- The value of a key so far. -/
def value? (m : Merged k) (key : Key) : Option k.Value := (m.get? key).map Prod.fst

/-- The source set that declared a key last. -/
def source? (m : Merged k) (key : Key) : Option SourceSetName := (m.get? key).map Prod.snd

theorem keys_declareAll (m : Merged k) (ds : List (Declaring k)) :
    (m.declareAll ds).keys = (m.keys ++ ds.map fun d => d.2.key).eraseDups := by
  induction ds generalizing m with
  | nil =>
    rw [List.map_nil, List.append_nil, eraseDups_of_nodup m.nodup_keys]
    rfl
  | cons d ds ih =>
    rw [declareAll_cons, ih, keys_declare, List.map_cons]
    by_cases h : d.2.key ∈ m.keys
    · rw [if_pos h, eraseDups_append_cons_of_mem _ h]
    · rw [if_neg h, List.append_assoc, List.singleton_append]

theorem get?_declare (m : Merged k) (s : SourceSetName) (e : Entry k) (key : Key) :
    (m.declare s e).get? key =
      if e.key = key then ((m.value? key).merge k.overlay (some e.value)).map fun v => (v, s)
      else m.get? key := by
  unfold declare value?
  split
  · rename_i old _ hold
    rw [OrderedMap.get?_insert]
    split
    · rename_i hk
      rw [← hk, hold]
      rfl
    · rfl
  · rename_i hnone
    rw [OrderedMap.get?_insert]
    split
    · rename_i hk
      rw [← hk, hnone]
      rfl
    · rfl

theorem value?_declare (m : Merged k) (s : SourceSetName) (e : Entry k) (key : Key) :
    (m.declare s e).value? key =
      (m.value? key).merge k.overlay (k.layered (valuesOf key [e])) := by
  rw [value?, get?_declare]
  by_cases h : e.key = key
  · have hvalues : valuesOf key [e] = [e.value] := by simp [valuesOf, h]
    rw [if_pos h, hvalues, Kind.layered_singleton, Option.map_map]
    exact Option.map_id'
  · have hvalues : valuesOf key [e] = [] := by simp [valuesOf, h]
    rw [if_neg h, hvalues, Kind.layered_nil, Option.merge_none_right]
    rfl

/-- **Declarations lay their values over what was known before.** -/
theorem value?_declareAll (m : Merged k) (ds : List (Declaring k)) (key : Key) :
    (m.declareAll ds).value? key =
      (m.value? key).merge k.overlay (k.layered (valuesOf key (ds.map Prod.snd))) := by
  induction ds generalizing m with
  | nil => exact Option.merge_none_right.symm
  | cons d ds ih =>
    have hvalues : valuesOf key ((d :: ds).map Prod.snd) =
        valuesOf key [d.2] ++ valuesOf key (ds.map Prod.snd) :=
      valuesOf_append key [d.2] (ds.map Prod.snd)
    rw [declareAll_cons, ih, value?_declare, hvalues, Kind.layered_append]
    have hassoc : Std.Associative (Option.merge k.overlay) := inferInstance
    exact hassoc.assoc _ _ _

/-- The source set of a key is that of its last declaration. -/
theorem source?_declareAll (m : Merged k) (ds : List (Declaring k)) (key : Key) :
    (m.declareAll ds).source? key =
      ((ds.reverse.find? fun d => d.2.key = key).map Prod.fst).or (m.source? key) := by
  induction ds generalizing m with
  | nil => rfl
  | cons d ds ih =>
    rw [declareAll_cons, ih, List.reverse_cons, List.find?_append, source?, get?_declare]
    by_cases h : d.2.key = key
    · have hsome : ∃ v, (m.value? key).merge k.overlay (some d.2.value) = some v := by
        cases m.value? key <;> exact ⟨_, rfl⟩
      obtain ⟨v, hv⟩ := hsome
      rw [if_pos h, hv]
      cases ds.reverse.find? fun d => d.2.key = key <;> simp [h]
    · rw [if_neg h]
      simp [h, source?]

theorem result_eq_ok {m : Merged k} {es : List (Entry k)} (h : m.result = .ok es) :
    es = (m.entries.map fun e => ⟨e.1, e.2.1⟩) ∧ ∀ e ∈ m.entries, k.lacksValue e.2.1 = false := by
  unfold result at h
  split at h
  · cases h
  · rename_i hnone
    rw [List.find?_eq_none] at hnone
    exact ⟨(Except.ok.inj h).symm, fun e he => by simpa using hnone e he⟩

end Merged

/-! ### Merged entries -/

variable {fs : List (Fragment k)} {es : List (Entry k)}

theorem keys_ofFragments (fs : List (Fragment k)) :
    (Merged.ofFragments fs).keys = ((fs.flatMap Fragment.entries).map Entry.key).eraseDups := by
  rw [Merged.ofFragments_eq_declareAll, Merged.keys_declareAll, OrderedMap.keys_empty,
    List.nil_append, ← map_snd_declarations, List.map_map]
  rfl

theorem keys_of_mergeFragments (h : mergeFragments fs = .ok es) :
    es.map Entry.key = ((fs.flatMap Fragment.entries).map Entry.key).eraseDups := by
  obtain ⟨hes, -⟩ := Merged.result_eq_ok h
  rw [← keys_ofFragments, hes, List.map_map]
  rfl

theorem nodup_keys_of_mergeFragments (h : mergeFragments fs = .ok es) :
    (es.map Entry.key).Nodup := by
  rw [keys_of_mergeFragments h]
  exact nodup_eraseDups _

/-- A merged entry is known by its key. -/
theorem value?_of_mergeFragments (h : mergeFragments fs = .ok es) {e : Entry k} (he : e ∈ es) :
    (Merged.ofFragments fs).value? e.key = some e.value ∧ k.lacksValue e.value = false := by
  obtain ⟨hes, hvalues⟩ := Merged.result_eq_ok h
  rw [hes, List.mem_map] at he
  obtain ⟨⟨key, v, s⟩, hm, rfl⟩ := he
  refine ⟨?_, hvalues _ hm⟩
  rw [Merged.value?, OrderedMap.mem_entries_iff.1 hm]
  rfl

theorem value?_ofFragments (fs : List (Fragment k)) (key : Key) :
    (Merged.ofFragments fs).value? key =
      k.layered (valuesOf key (fs.flatMap Fragment.entries)) := by
  rw [Merged.ofFragments_eq_declareAll, Merged.value?_declareAll, map_snd_declarations]
  exact Option.merge_none_left

/-- **A merged entry has all values declared for its key, laid over each other.** -/
theorem layered_of_mergeFragments (h : mergeFragments fs = .ok es) {e : Entry k} (he : e ∈ es) :
    k.layered (valuesOf e.key (fs.flatMap Fragment.entries)) = some e.value := by
  rw [← value?_ofFragments]
  exact (value?_of_mergeFragments h he).1

end ResourceCompiler
