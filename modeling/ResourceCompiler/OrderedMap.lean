/-!
# Maps in insertion order

A finite map whose keys keep the order in which they were first inserted. Giving a key a new value
leaves the key where it stands.

## Main definitions

* `OrderedMap κ α`: the entries in order, no key twice.
* `OrderedMap.insert`, `OrderedMap.get?`, `OrderedMap.keys`, `OrderedMap.ofList`.
* `OrderedMap.overlay`: the entries of a second map put into a first one.

## Main statements

* `keys_insert`, `get?_insert`: what an insertion does to the order and to the values.
* `keys_overlay`, `get?_overlay`: the same for an overlay; the second map wins.
* `ext_of_get?`: a map is its keys in order and the value of each.
-/

namespace ResourceCompiler

variable {κ α : Type} [DecidableEq κ]

namespace Entries

/-- The value of a key in a list of entries. -/
def find? (key : κ) : List (κ × α) → Option α
  | [] => none
  | (k, v) :: rest => if k = key then some v else find? key rest

/-- Gives the key the value, where the key stands or else at the end. -/
def put (key : κ) (value : α) : List (κ × α) → List (κ × α)
  | [] => [(key, value)]
  | (k, v) :: rest => if k = key then (key, value) :: rest else (k, v) :: put key value rest

theorem find?_eq_none_iff {key : κ} {es : List (κ × α)} :
    find? key es = none ↔ key ∉ es.map Prod.fst := by
  induction es with
  | nil => simp [find?]
  | cons e rest ih =>
    obtain ⟨k, v⟩ := e
    by_cases h : k = key
    · simp [find?, h]
    · simp [find?, h, ih, Ne.symm h]

theorem map_fst_put (key : κ) (value : α) (es : List (κ × α)) :
    (put key value es).map Prod.fst =
      if key ∈ es.map Prod.fst then es.map Prod.fst else es.map Prod.fst ++ [key] := by
  induction es with
  | nil => simp [put]
  | cons e rest ih =>
    obtain ⟨k, v⟩ := e
    by_cases h : k = key
    · simp [put, h]
    · simp only [put, if_neg h, List.map_cons, ih, List.mem_cons, Ne.symm h, false_or]
      split <;> simp

theorem nodup_put (key : κ) (value : α) {es : List (κ × α)} (h : (es.map Prod.fst).Nodup) :
    ((put key value es).map Prod.fst).Nodup := by
  rw [map_fst_put]
  split
  · exact h
  · rename_i hk
    rw [List.nodup_append]
    exact ⟨h, by simp, fun a ha b hb e => hk (by
      rw [List.mem_singleton] at hb; subst hb; subst e; exact ha)⟩

theorem find?_put (key k : κ) (value : α) (es : List (κ × α)) :
    find? k (put key value es) = if key = k then some value else find? k es := by
  induction es with
  | nil => simp [put, find?]
  | cons e rest ih =>
    obtain ⟨k', v⟩ := e
    by_cases h : k' = key
    · subst h
      by_cases hk : k' = k <;> simp [put, find?, hk]
    · by_cases hk : k' = k
      · subst hk
        simp [put, find?, h, Ne.symm h]
      · simp [put, find?, h, hk, ih]

theorem find?_eq_some_of_mem {key : κ} {value : α} {es : List (κ × α)}
    (hn : (es.map Prod.fst).Nodup) (h : (key, value) ∈ es) : find? key es = some value := by
  induction es with
  | nil => simp at h
  | cons e rest ih =>
    obtain ⟨k, v⟩ := e
    rw [List.map_cons, List.nodup_cons] at hn
    rcases List.mem_cons.1 h with he | h
    · cases he; simp [find?]
    · have hk : k ≠ key := fun hk => hn.1 (hk ▸ List.mem_map.2 ⟨(key, value), h, rfl⟩)
      simp [find?, hk, ih hn.2 h]

theorem mem_of_find?_eq_some {key : κ} {value : α} {es : List (κ × α)}
    (h : find? key es = some value) : (key, value) ∈ es := by
  induction es with
  | nil => simp [find?] at h
  | cons e rest ih =>
    obtain ⟨k, v⟩ := e
    rw [find?] at h
    split at h
    · rename_i hk
      subst hk
      simp only [Option.some.injEq] at h
      simp [h]
    · exact List.mem_cons_of_mem _ (ih h)

/-- Keys in order and the value of each determine the entries. -/
theorem ext_of_find? {es fs : List (κ × α)} (he : (es.map Prod.fst).Nodup)
    (hk : es.map Prod.fst = fs.map Prod.fst) (h : ∀ k ∈ es.map Prod.fst, find? k es = find? k fs) :
    es = fs := by
  induction es generalizing fs with
  | nil => cases fs with
    | nil => rfl
    | cons => simp at hk
  | cons e rest ih =>
    obtain ⟨k, v⟩ := e
    cases fs with
    | nil => simp at hk
    | cons f frest =>
      obtain ⟨k', v'⟩ := f
      simp only [List.map_cons, List.cons.injEq] at hk
      obtain ⟨rfl, hk⟩ := hk
      have hv := h k (by simp)
      simp only [find?, if_true, Option.some.injEq] at hv
      subst hv
      rw [List.map_cons, List.nodup_cons] at he
      congr 1
      refine ih he.2 hk fun j hj => ?_
      have hkj : k ≠ j := fun e => he.1 (e ▸ hj)
      have := h j (by simp only [List.map_cons]; exact List.mem_cons_of_mem _ hj)
      simpa [find?, hkj] using this

end Entries

/-- A finite map that keeps its keys in the order of their first insertion. -/
structure OrderedMap (κ α : Type) where
  entries : List (κ × α)
  distinct : (entries.map Prod.fst).Nodup

namespace OrderedMap

omit [DecidableEq κ] in
@[ext] theorem ext {m n : OrderedMap κ α} (h : m.entries = n.entries) : m = n := by
  cases m; cases n; simp_all

instance [DecidableEq α] : DecidableEq (OrderedMap κ α) := fun m n =>
  if h : m.entries = n.entries then isTrue (ext h) else isFalse fun e => h (e ▸ rfl)

/-- The map without entries. -/
def empty : OrderedMap κ α := ⟨[], by simp⟩

/-- The keys, in order. -/
def keys (m : OrderedMap κ α) : List κ := m.entries.map Prod.fst

/-- The value of a key. -/
def get? (m : OrderedMap κ α) (key : κ) : Option α := Entries.find? key m.entries

/-- Whether the map has the key. -/
def contains (m : OrderedMap κ α) (key : κ) : Bool := (m.get? key).isSome

/-- Whether the map has no entries. -/
def isEmpty (m : OrderedMap κ α) : Bool := m.entries.isEmpty

/-- Gives a key a value. A new key goes to the end. -/
def insert (m : OrderedMap κ α) (key : κ) (value : α) : OrderedMap κ α :=
  ⟨Entries.put key value m.entries, Entries.nodup_put key value m.distinct⟩

/-- The entries of a list, put into a map one after the other. -/
def putAll (m : OrderedMap κ α) (es : List (κ × α)) : OrderedMap κ α :=
  es.foldl (fun m e => m.insert e.1 e.2) m

/-- The map that a list of entries describes: a key stands where it first occurs and has the value
of its last occurrence. -/
def ofList (es : List (κ × α)) : OrderedMap κ α := putAll empty es

/-- The entries whose key satisfies a test. -/
def filterKeys (p : κ → Bool) (m : OrderedMap κ α) : OrderedMap κ α :=
  ⟨m.entries.filter fun e => p e.1, m.distinct.sublist (List.filter_sublist.map _)⟩

/-- The second components of pairs, gathered under the first ones. -/
def group (pairs : List (κ × α)) : OrderedMap κ (List α) :=
  pairs.foldl (fun m e => m.insert e.1 ((m.get? e.1).getD [] ++ [e.2])) empty

/-- The entries of `upper` put into `m`. -/
def overlay (m upper : OrderedMap κ α) : OrderedMap κ α := m.putAll upper.entries

omit [DecidableEq κ] in
theorem nodup_keys (m : OrderedMap κ α) : m.keys.Nodup := m.distinct

omit [DecidableEq κ] in
@[simp] theorem keys_empty : (empty : OrderedMap κ α).keys = [] := rfl

@[simp] theorem get?_empty (key : κ) : (empty : OrderedMap κ α).get? key = none := rfl

theorem get?_eq_none_iff {m : OrderedMap κ α} {key : κ} : m.get? key = none ↔ key ∉ m.keys :=
  Entries.find?_eq_none_iff

theorem contains_iff {m : OrderedMap κ α} {key : κ} : m.contains key = true ↔ key ∈ m.keys := by
  rw [contains, ← Decidable.not_iff_not (b := key ∈ m.keys), ← get?_eq_none_iff]
  cases m.get? key <;> simp

theorem mem_entries_iff {m : OrderedMap κ α} {key : κ} {value : α} :
    (key, value) ∈ m.entries ↔ m.get? key = some value :=
  ⟨Entries.find?_eq_some_of_mem m.distinct, Entries.mem_of_find?_eq_some⟩

omit [DecidableEq κ] in
theorem isEmpty_iff {m : OrderedMap κ α} : m.isEmpty = true ↔ m.keys = [] := by
  simp [isEmpty, keys]

theorem keys_insert (m : OrderedMap κ α) (key : κ) (value : α) :
    (m.insert key value).keys = if key ∈ m.keys then m.keys else m.keys ++ [key] :=
  Entries.map_fst_put key value m.entries

theorem get?_insert (m : OrderedMap κ α) (key k : κ) (value : α) :
    (m.insert key value).get? k = if key = k then some value else m.get? k :=
  Entries.find?_put key k value m.entries

theorem mem_keys_insert {m : OrderedMap κ α} {key k : κ} {value : α} :
    k ∈ (m.insert key value).keys ↔ k ∈ m.keys ∨ k = key := by
  rw [keys_insert]
  split
  · rename_i h
    exact ⟨Or.inl, fun hk => hk.elim id fun e => e ▸ h⟩
  · simp

/-- A map is its keys in order and the value of each. -/
theorem ext_of_get? {m n : OrderedMap κ α} (hk : m.keys = n.keys)
    (h : ∀ k ∈ m.keys, m.get? k = n.get? k) : m = n :=
  ext (Entries.ext_of_find? m.distinct hk h)

theorem get?_filterKeys (p : κ → Bool) (m : OrderedMap κ α) (k : κ) :
    (m.filterKeys p).get? k = if p k then m.get? k else none := by
  have h : ∀ es : List (κ × α), Entries.find? k (es.filter fun e => p e.1) =
      if p k then Entries.find? k es else none := by
    intro es
    induction es with
    | nil => simp [Entries.find?]
    | cons e rest ih =>
      obtain ⟨a, b⟩ := e
      by_cases ha : a = k
      · subst ha
        by_cases hp : p a <;> simp [Entries.find?, hp, ih]
      · by_cases hp : p a <;> simp [Entries.find?, hp, ha, ih]
  exact h m.entries

omit [DecidableEq κ] in
theorem mem_keys_filterKeys {p : κ → Bool} {m : OrderedMap κ α} {k : κ} :
    k ∈ (m.filterKeys p).keys ↔ k ∈ m.keys ∧ p k = true := by
  simp only [keys, filterKeys, List.mem_map, List.mem_filter]
  constructor
  · rintro ⟨e, ⟨he, hp⟩, rfl⟩; exact ⟨⟨e, he, rfl⟩, hp⟩
  · rintro ⟨⟨e, he, rfl⟩, hp⟩; exact ⟨e, ⟨he, hp⟩, rfl⟩

/-! ### Several insertions -/

@[simp] theorem putAll_nil (m : OrderedMap κ α) : m.putAll [] = m := rfl

@[simp] theorem putAll_cons (m : OrderedMap κ α) (e : κ × α) (es : List (κ × α)) :
    m.putAll (e :: es) = (m.insert e.1 e.2).putAll es := rfl

theorem putAll_append (m : OrderedMap κ α) (es fs : List (κ × α)) :
    m.putAll (es ++ fs) = (m.putAll es).putAll fs := by
  simp [putAll, List.foldl_append]

/-- A key put several times has its last value. -/
theorem get?_putAll (m : OrderedMap κ α) (es : List (κ × α)) (k : κ) :
    (m.putAll es).get? k = (Entries.find? k es.reverse).or (m.get? k) := by
  induction es generalizing m with
  | nil => simp [Entries.find?]
  | cons e rest ih =>
    have happ : ∀ l : List (κ × α),
        Entries.find? k (l ++ [e]) =
          (Entries.find? k l).or (if e.1 = k then some e.2 else none) := by
      intro l
      induction l with
      | nil => simp [Entries.find?]
      | cons d l ihl =>
        obtain ⟨a, b⟩ := d
        by_cases ha : a = k <;> simp [Entries.find?, ha, ihl]
    rw [putAll_cons, ih, get?_insert, List.reverse_cons, happ, Option.or_assoc]
    congr 1
    split <;> simp

theorem get?_ofList (es : List (κ × α)) (k : κ) :
    (ofList es).get? k = Entries.find? k es.reverse := by
  simp [ofList, get?_putAll]

/-- Keys that are put and not there yet follow in the order of their first occurrence. -/
theorem keys_putAll (m : OrderedMap κ α) (es : List (κ × α)) :
    (m.putAll es).keys =
      es.foldl (fun ks e => if e.1 ∈ ks then ks else ks ++ [e.1]) m.keys := by
  induction es generalizing m with
  | nil => rfl
  | cons e rest ih => rw [putAll_cons, ih, keys_insert, List.foldl_cons]

theorem mem_keys_putAll {m : OrderedMap κ α} {es : List (κ × α)} {k : κ} :
    k ∈ (m.putAll es).keys ↔ k ∈ m.keys ∨ k ∈ es.map Prod.fst := by
  induction es generalizing m with
  | nil => simp
  | cons e rest ih => rw [putAll_cons, ih, mem_keys_insert]; simp [or_assoc]

/-- Putting entries with new and distinct keys appends them. -/
theorem entries_putAll_of_disjoint {m : OrderedMap κ α} {es : List (κ × α)}
    (h : (m.keys ++ es.map Prod.fst).Nodup) : (m.putAll es).entries = m.entries ++ es := by
  induction es generalizing m with
  | nil => simp
  | cons e rest ih =>
    have hput : ∀ l : List (κ × α), e.1 ∉ l.map Prod.fst → Entries.put e.1 e.2 l = l ++ [e] := by
      intro l
      induction l with
      | nil => simp [Entries.put]
      | cons d l ihl =>
        obtain ⟨a, b⟩ := d
        intro hd
        simp only [List.map_cons, List.mem_cons, not_or] at hd
        simp [Entries.put, Ne.symm hd.1, ihl hd.2]
    have hnew : e.1 ∉ m.keys := by
      intro hm
      rw [List.nodup_append] at h
      exact h.2.2 _ hm _ (by simp) rfl
    have hentries : (m.insert e.1 e.2).entries = m.entries ++ [e] := hput _ hnew
    rw [putAll_cons, ih, hentries, List.append_assoc, List.singleton_append]
    rw [keys_insert, if_neg hnew, List.append_assoc]
    simpa using h

/-- Entries with distinct keys are kept as they are. -/
theorem entries_ofList {es : List (κ × α)} (h : (es.map Prod.fst).Nodup) :
    (ofList es).entries = es := by
  have hentries := @entries_putAll_of_disjoint κ α _ empty es (by simpa using h)
  simpa [ofList, empty] using hentries

/-- The entries of a map describe it. -/
theorem ofList_entries (m : OrderedMap κ α) : ofList m.entries = m :=
  ext (entries_ofList m.distinct)

/-! ### Overlays -/

theorem keys_overlay (m upper : OrderedMap κ α) :
    (m.overlay upper).keys = m.keys ++ upper.keys.filter fun k => k ∉ m.keys := by
  have h : ∀ (es : List (κ × α)) (m : OrderedMap κ α), (es.map Prod.fst).Nodup →
      (m.putAll es).keys = m.keys ++ (es.map Prod.fst).filter fun k => k ∉ m.keys := by
    intro es
    induction es with
    | nil => simp
    | cons e rest ih =>
      intro m hn
      rw [List.map_cons, List.nodup_cons] at hn
      rw [putAll_cons, ih _ hn.2, keys_insert]
      by_cases hk : e.1 ∈ m.keys
      · simp [hk]
      · simp only [if_neg hk, List.map_cons, List.append_assoc, List.singleton_append]
        rw [List.filter_cons_of_pos (by simpa using hk)]
        congr 2
        apply List.filter_congr
        intro k hkr
        have : k ≠ e.1 := fun he => hn.1 (he ▸ hkr)
        simp [this]
  exact h upper.entries m upper.distinct

theorem get?_overlay (m upper : OrderedMap κ α) (k : κ) :
    (m.overlay upper).get? k = (upper.get? k).or (m.get? k) := by
  have hrev : Entries.find? k upper.entries.reverse = upper.get? k := by
    rw [← get?_ofList, ofList_entries]
  rw [overlay, get?_putAll, hrev]

end OrderedMap

end ResourceCompiler
