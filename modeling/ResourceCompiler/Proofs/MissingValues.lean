import ResourceCompiler.Proofs.Retention

/-!
# Keys without values

Merging fails where a key is left without any locale or scale, which is where all declarations of
the key are without one. The error names the first such key, in the order of first declaration over
all fragments, and the fragment that declares it last. A declaration without locale or scale adds no
value, so that it changes nothing but the source set that is named.

* `Bare`: a key that all its declarations leave without locale or scale.
* `LastDeclares`: the last fragment that declares a key.
* `lacksValue_iff_bare`, `source?_ofFragments`: what is known of a key in the end.
* `mergeFragments_eq_error_iff`: when merging fails, and with which error.
-/

namespace ResourceCompiler

variable {k : Kind} {fs : List (Fragment k)}

/-- Whether entries declare a key for no locale or scale at all. -/
def Bare (es : List (Entry k)) (key : Key) : Prop := ∀ e ∈ es, e.key = key → e.qualifiers = []

/-- Whether a fragment is the last one of a sequence that declares a key. -/
def LastDeclares (fs : List (Fragment k)) (key : Key) (f : Fragment k) : Prop :=
  ∃ before after, fs = before ++ f :: after ∧ key ∈ f.entries.map Entry.key ∧
    ∀ g ∈ after, key ∉ g.entries.map Entry.key

/-! ### First occurrences -/

/-- The first item that a test accepts is the same when repeated items are left out. -/
theorem find?_eraseDups {κ : Type} [DecidableEq κ] (p : κ → Bool) (l : List κ) :
    l.eraseDups.find? p = l.find? p := by
  induction l using List.reverseRecOn with
  | nil => rfl
  | append_singleton l a ih =>
    rw [eraseDups_concat, List.find?_append]
    split
    · rename_i ha
      rw [ih]
      cases hfound : l.find? p with
      | some b => rfl
      | none =>
        have hreject : p a = false := by simpa using List.find?_eq_none.1 hfound a ha
        simp [hreject]
    · rw [List.find?_append, ih]

/-- A list with an item of a property has a first one. -/
theorem exists_first {α : Type} {p : α → Prop} {l : List α} {a : α} (ha : a ∈ l) (hp : p a) :
    ∃ before b after, l = before ++ b :: after ∧ p b ∧ ∀ c ∈ before, ¬ p c := by
  classical
  obtain ⟨b, hb⟩ : ∃ b, l.find? (fun c => p c) = some b :=
    Option.isSome_iff_exists.1 (List.find?_isSome.2 ⟨a, ha, decide_eq_true hp⟩)
  obtain ⟨hpb, before, after, hsplit, hbefore⟩ := List.find?_eq_some_iff_append.1 hb
  exact ⟨before, b, after, hsplit, of_decide_eq_true hpb, fun c hc => by simpa using hbefore c hc⟩

/-! ### What is known of a key in the end -/

/-- A merged value is missing exactly if no declaration has a locale or scale. -/
theorem lacksValue_iff_bare {key : Key} {v : k.Value}
    (h : (Merged.ofFragments fs).value? key = some v) :
    k.lacksValue v = true ↔ k ≠ .colors ∧ Bare (fs.flatMap Fragment.entries) key := by
  rw [value?_ofFragments] at h
  have hlayering := Kind.isLayering_of_layered h
  rw [Kind.lacksValue_iff, Bare]
  refine and_congr_right fun _ => ?_
  simp only [List.eq_nil_iff_forall_not_mem, hlayering.mem_qualifiers, not_exists, not_and]
  constructor
  · intro hnone e he hkey q hq
    exact hnone q e.value (mem_valuesOf_iff.2 ⟨e, he, hkey, rfl⟩) hq
  · intro hbare q u hu hq
    obtain ⟨e, he, hkey, rfl⟩ := mem_valuesOf_iff.1 hu
    exact hbare e he hkey q hq

theorem exists_lastDeclares {e : Entry k} (he : e ∈ fs.flatMap Fragment.entries) :
    ∃ f, LastDeclares fs e.key f := by
  have hsome : (fs.reverse.find? fun f => e.key ∈ f.entries.map Entry.key).isSome = true := by
    rw [List.find?_isSome]
    obtain ⟨f, hf, hef⟩ := List.mem_flatMap.1 he
    exact ⟨f, List.mem_reverse.2 hf, decide_eq_true (List.mem_map_of_mem hef)⟩
  obtain ⟨f, hf⟩ := Option.isSome_iff_exists.1 hsome
  obtain ⟨hdeclares, after, before, hsplit, hafter⟩ := List.find?_eq_some_iff_append.1 hf
  refine ⟨f, before.reverse, after.reverse, ?_, of_decide_eq_true hdeclares, fun g hg => ?_⟩
  · rw [← List.reverse_reverse fs, hsplit, List.reverse_append, List.reverse_cons,
      List.append_assoc, List.singleton_append]
  · simpa using hafter g (List.mem_reverse.1 hg)

/-- The source set of a key is that of the last fragment that declares it. -/
theorem source?_ofFragments {key : Key} {f : Fragment k} (h : LastDeclares fs key f) :
    (Merged.ofFragments fs).source? key = some f.sourceSet := by
  obtain ⟨before, after, rfl, hmem, hafter⟩ := h
  rw [Merged.ofFragments_eq_declareAll, Merged.source?_declareAll, declarations_append,
    declarations_cons, List.reverse_append, List.reverse_append, List.find?_append,
    List.find?_append]
  have hnone : (declarations after).reverse.find? (fun d => d.2.key = key) = none := by
    refine List.find?_eq_none.2 fun d hd => ?_
    obtain ⟨g, hg, hd⟩ := List.mem_flatMap.1 (List.mem_reverse.1 hd)
    obtain ⟨e, he, rfl⟩ := List.mem_map.1 hd
    rw [decide_eq_true_iff]
    exact fun hkey => hafter g hg (List.mem_map.2 ⟨e, he, hkey⟩)
  -- all declarations of the fragment are of its source set
  obtain ⟨d, hd⟩ : ∃ d, (f.entries.map fun e => (f.sourceSet, e)).reverse.find?
      (fun d => d.2.key = key) = some d := by
    rw [← Option.isSome_iff_exists, List.find?_isSome]
    obtain ⟨e, he, hkey⟩ := List.mem_map.1 hmem
    exact ⟨(f.sourceSet, e), List.mem_reverse.2 (List.mem_map.2 ⟨e, he, rfl⟩),
      decide_eq_true hkey⟩
  have hsource : d.1 = f.sourceSet := by
    obtain ⟨e, -, rfl⟩ := List.mem_map.1 (List.mem_reverse.1 (List.mem_of_find?_eq_some hd))
    rfl
  rw [hnone, hd, ← hsource]
  rfl

/-! ### Failure -/

theorem Merged.result_eq_error_iff {m : Merged k} {e : MergeError} :
    m.result = .error e ↔ ∃ key v s, m.entries.find? (fun x => k.lacksValue x.2.1) =
      some (key, v, s) ∧ e = .missingDefault k key s := by
  rw [result]
  cases hfound : m.entries.find? fun x => k.lacksValue x.2.1 with
  | none => simp
  | some x =>
    obtain ⟨key, v, s⟩ := x
    simp [eq_comm]

/-- The first merged key that lacks a value is the first declared one that a test accepts, if the
test tells which merged keys lack one. -/
theorem find?_entries_map_fst {p : Key → Bool}
    (hp : ∀ x ∈ (Merged.ofFragments fs).entries, k.lacksValue x.2.1 = p x.1) :
    ((Merged.ofFragments fs).entries.find? fun x => k.lacksValue x.2.1).map Prod.fst =
      ((fs.flatMap Fragment.entries).find? fun e => p e.key).map Entry.key := by
  have hkeys : ((Merged.ofFragments fs).entries.map Prod.fst).find? p =
      ((fs.flatMap Fragment.entries).map Entry.key).find? p := by
    rw [← find?_eraseDups p ((fs.flatMap Fragment.entries).map Entry.key), ← keys_ofFragments]
    rfl
  rw [List.find?_map, List.find?_map] at hkeys
  rw [← List.head?_filter, List.filter_congr hp, List.head?_filter]
  exact hkeys

/-- The first merged key that lacks a value is the first bare one that is declared. -/
theorem find?_entries_eq_some_iff {key : Key} :
    (∃ v s, (Merged.ofFragments fs).entries.find? (fun x => k.lacksValue x.2.1) =
      some (key, v, s)) ↔
    k ≠ .colors ∧ ∃ before d after, fs.flatMap Fragment.entries = before ++ d :: after ∧
      d.key = key ∧ Bare (fs.flatMap Fragment.entries) key ∧
      ∀ x ∈ before, ¬ Bare (fs.flatMap Fragment.entries) x.key := by
  classical
  obtain ⟨p, hp⟩ : ∃ p : Key → Bool, ∀ key, p key = true ↔
      k ≠ .colors ∧ Bare (fs.flatMap Fragment.entries) key :=
    ⟨fun key => decide (k ≠ .colors ∧ Bare (fs.flatMap Fragment.entries) key), by simp⟩
  have hlacks : ∀ x ∈ (Merged.ofFragments fs).entries, k.lacksValue x.2.1 = p x.1 := by
    intro x hx
    have hvalue : (Merged.ofFragments fs).value? x.1 = some x.2.1 := by
      rw [Merged.value?, OrderedMap.mem_entries_iff.1 hx]
      rfl
    rw [Bool.eq_iff_iff, lacksValue_iff_bare hvalue, hp]
  have hfirst : (∃ v s, (Merged.ofFragments fs).entries.find? (fun x => k.lacksValue x.2.1) =
      some (key, v, s)) ↔
      ((fs.flatMap Fragment.entries).find? fun e => p e.key).map Entry.key = some key := by
    rw [← find?_entries_map_fst hlacks, Option.map_eq_some_iff]
    constructor
    · rintro ⟨v, s, h⟩
      exact ⟨_, h, rfl⟩
    · rintro ⟨⟨_, v, s⟩, h, rfl⟩
      exact ⟨v, s, h⟩
  rw [hfirst, Option.map_eq_some_iff]
  constructor
  · rintro ⟨d, hd, rfl⟩
    obtain ⟨hd, before, after, hsplit, hbefore⟩ := List.find?_eq_some_iff_append.1 hd
    obtain ⟨hkind, hbare⟩ := (hp d.key).1 hd
    refine ⟨hkind, before, d, after, hsplit, rfl, hbare, fun x hx hbare => ?_⟩
    have hreject := hbefore x hx
    rw [(hp x.key).2 ⟨hkind, hbare⟩] at hreject
    cases hreject
  · rintro ⟨hkind, before, d, after, hsplit, rfl, hbare, hbefore⟩
    refine ⟨d, List.find?_eq_some_iff_append.2
      ⟨(hp d.key).2 ⟨hkind, hbare⟩, before, after, hsplit, fun x hx => ?_⟩, rfl⟩
    rw [Bool.not_eq_true', Bool.eq_false_iff]
    exact fun haccept => hbefore x hx ((hp x.key).1 haccept).2

/-- The error names the first bare key and the last fragment that declares it. -/
theorem eq_error_iff_first_bare {e : MergeError} :
    mergeFragments fs = .error e ↔ k ≠ .colors ∧
      ∃ before d after f, fs.flatMap Fragment.entries = before ++ d :: after ∧
        Bare (fs.flatMap Fragment.entries) d.key ∧
        (∀ x ∈ before, ¬ Bare (fs.flatMap Fragment.entries) x.key) ∧
        LastDeclares fs d.key f ∧ e = .missingDefault k d.key f.sourceSet := by
  have hsource {key : Key} {v : k.Value} {s : SourceSetName} {f : Fragment k}
      (hfound : (Merged.ofFragments fs).entries.find? (fun x => k.lacksValue x.2.1) =
        some (key, v, s)) (hf : LastDeclares fs key f) : s = f.sourceSet := by
    have hlast := source?_ofFragments hf
    rw [Merged.source?, OrderedMap.mem_entries_iff.1 (List.mem_of_find?_eq_some hfound)] at hlast
    exact Option.some.inj hlast
  rw [mergeFragments, Merged.result_eq_error_iff]
  constructor
  · rintro ⟨key, v, s, hfound, rfl⟩
    obtain ⟨hkind, before, d, after, hsplit, rfl, hbare, hbefore⟩ :=
      find?_entries_eq_some_iff.1 ⟨v, s, hfound⟩
    have hd : d ∈ fs.flatMap Fragment.entries := by
      rw [hsplit]
      exact List.mem_append_right before List.mem_cons_self
    obtain ⟨f, hf⟩ := exists_lastDeclares hd
    exact ⟨hkind, before, d, after, f, hsplit, hbare, hbefore, hf, by rw [hsource hfound hf]⟩
  · rintro ⟨hkind, before, d, after, f, hsplit, hbare, hbefore, hf, rfl⟩
    obtain ⟨v, s, hfound⟩ := find?_entries_eq_some_iff.2
      ⟨hkind, before, d, after, hsplit, rfl, hbare, hbefore⟩
    exact ⟨d.key, v, s, hfound, by rw [hsource hfound hf]⟩

/-- **Missing values are reported exactly.** Merging fails if and only if some key is declared for
no locale or scale by any of its declarations. The error names the kind, the first such key in the
order of first declaration, and the source set of the last fragment that declares the key. Merging
colors never fails. -/
theorem mergeFragments_eq_error_iff (k : Kind) (fs : List (Fragment k)) :
    ((∃ e, mergeFragments fs = .error e) ↔ k ≠ .colors ∧
      ∃ d ∈ fs.flatMap Fragment.entries, Bare (fs.flatMap Fragment.entries) d.key) ∧
    (∀ e, mergeFragments fs = .error e ↔ k ≠ .colors ∧
      ∃ before d after f, fs.flatMap Fragment.entries = before ++ d :: after ∧
        Bare (fs.flatMap Fragment.entries) d.key ∧
        (∀ x ∈ before, ¬ Bare (fs.flatMap Fragment.entries) x.key) ∧
        LastDeclares fs d.key f ∧ e = .missingDefault k d.key f.sourceSet) ∧
    ∀ gs : List (Fragment .colors), ∃ es, mergeFragments gs = .ok es := by
  refine ⟨?_, fun e => eq_error_iff_first_bare, fun gs => ⟨_, mergeFragments_colors gs⟩⟩
  constructor
  · rintro ⟨e, he⟩
    obtain ⟨hkind, before, d, after, -, hsplit, hbare, -⟩ := eq_error_iff_first_bare.1 he
    refine ⟨hkind, d, ?_, hbare⟩
    rw [hsplit]
    exact List.mem_append_right before List.mem_cons_self
  · rintro ⟨hkind, d, hd, hbare⟩
    obtain ⟨before, x, after, hsplit, hx, hbefore⟩ :=
      exists_first (p := fun x => Bare (fs.flatMap Fragment.entries) x.key) hd hbare
    have hmem : x ∈ fs.flatMap Fragment.entries := by
      rw [hsplit]
      exact List.mem_append_right before List.mem_cons_self
    obtain ⟨f, hf⟩ := exists_lastDeclares hmem
    exact ⟨_, eq_error_iff_first_bare.2 ⟨hkind, before, x, after, f, hsplit, hx, hbefore, hf, rfl⟩⟩

/-! ### A key that is declared twice without a text -/

namespace Murmur

def common : SourceSetName := ⟨"murmurMain", by decide⟩

def android : SourceSetName := ⟨"murmurAndroid", by decide⟩

/-- A string with texts for some locales. -/
def text (key : Key) (texts : List (Locale × String)) : Entry .strings :=
  ⟨key, OrderedMap.ofList texts⟩

def loud : Key := ⟨"loud", by decide⟩

def quiet : Key := ⟨"quiet", by decide⟩

def hushed : Key := ⟨"hushed", by decide⟩

/-- The loud string has a text in the end; of the other two, the quiet one comes first. -/
def fragments : List (Fragment .strings) :=
  [⟨common, [text loud [], text quiet [], text hushed []]⟩,
    ⟨android, [text quiet [], text loud [(.base, "Loud")]]⟩]

end Murmur

/-- The later declaration decides which source set is named. -/
theorem mergeFragments_eq_error_murmur :
    mergeFragments Murmur.fragments =
      .error (.missingDefault .strings Murmur.quiet Murmur.android) := by
  refine ((mergeFragments_eq_error_iff .strings Murmur.fragments).2.1 _).2
    ⟨Kind.noConfusion, [Murmur.text Murmur.loud []], Murmur.text Murmur.quiet [], _,
      ⟨Murmur.android, _⟩, rfl, ?_, ?_, ⟨[⟨Murmur.common, _⟩], [], rfl, ?_, ?_⟩, rfl⟩
  · intro e he hkey
    -- only the last declaration has a text, and it is not of the quiet string
    simp only [Murmur.fragments, List.flatMap_cons, List.flatMap_nil, List.append_nil,
      List.cons_append, List.nil_append, List.mem_cons, List.not_mem_nil, or_false] at he
    obtain rfl | rfl | rfl | rfl | rfl := he
    · rfl
    · rfl
    · rfl
    · rfl
    · exact absurd hkey (by decide)
  · intro x hx hbare
    obtain rfl := List.mem_singleton.1 hx
    cases hbare (Murmur.text Murmur.loud [(.base, "Loud")]) (by decide) rfl
  · decide
  · exact fun g hg => absurd hg List.not_mem_nil

end ResourceCompiler
