import ResourceCompiler.Metadata.Decoding
import ResourceCompiler.Metadata.Encoding
import ResourceCompiler.Proofs.Json.Nesting
import ResourceCompiler.Proofs.Sequence

/-!
# Encoded containers decoded

Entries and containers that are written as JSON values are taken from these values as they were.
First come the forms that all of them share, ordered maps and records, then each type in turn.

* `Decode.map_toJson`: ordered maps.
* `Decode.members_eq_ok_iff`: when the members of an object are read.
* `Decode.record_record`, `Decode.tagged_record`: records, and those that name their own form.
* `Decode.resource_toJson`: entries of every kind.
* `Decode.container_toJson`: containers, with room for what they open.
-/

namespace ResourceCompiler

namespace Decode

/-! ### Ordered maps, lists and words -/

theorem foldlM_insert {κ α : Type} [DecidableEq κ] {keyText : κ → String} {valueJson : α → Json}
    {key : String → Result κ} {value : Json → Result α} (hkey : ∀ k, key (keyText k) = .ok k)
    (hvalue : ∀ v, value (valueJson v) = .ok v) (es : List (κ × α)) (m : OrderedMap κ α) :
    (es.map fun e => (some (keyText e.1), valueJson e.2)).foldlM (fun m (name, v) => do
      let k ← key (← required name)
      return m.insert k (← value v)) m = .ok (m.putAll es) := by
  induction es generalizing m with
  | nil => rfl
  | cons e es ih =>
    rw [List.map_cons, List.foldlM_cons]
    simp only [required, bind, Except.bind, hkey, hvalue, pure, Except.pure]
    exact ih (m.insert e.1 e.2)

theorem map_toJson {κ α : Type} [DecidableEq κ] {keyText : κ → String} {valueJson : α → Json}
    {key : String → Result κ} {value : Json → Result α} (hkey : ∀ k, key (keyText k) = .ok k)
    (hvalue : ∀ v, value (valueJson v) = .ok v) (m : OrderedMap κ α) :
    map key value (m.toJson keyText valueJson) = .ok m := by
  have hfold := foldlM_insert hkey hvalue m.entries OrderedMap.empty
  rw [OrderedMap.toJson, Json.record, map, List.map_map]
  refine hfold.trans ?_
  exact congrArg Except.ok (OrderedMap.ofList_entries m)

theorem list_map {α : Type} {item : Json → Result α} {itemJson : α → Json} {as : List α}
    (h : ∀ a ∈ as, item (itemJson a) = .ok a) : list item (.array (as.map itemJson)) = .ok as := by
  rw [list, List.mapM_map]
  have hall := mapM_eq_ok_of_forall (g := id) h
  rw [List.map_id] at hall
  exact hall

theorem text_text (s : String) : text (.text s) = .ok s := rfl

theorem parsed_text {α : Type} {ofText? : String → Except InvalidValue α} {s : String} {a : α}
    (h : ofText? s = .ok a) : parsed ofText? (.text s) = .ok a := by
  rw [parsed, text_text]
  show valid (ofText? s) = _
  rw [h]
  rfl

theorem word_text {α : Type} {ofText? : String → Option α} {s : String} {a : α}
    (h : ofText? s = some a) : word ofText? (.text s) = .ok a := by
  show required (ofText? s) = _
  rw [h]
  rfl

/-! ### Records -/

theorem members_map {σ : Type} {names : List String} {put : String → Json → σ → Result σ}
    {taken : List String} {ms : List (String × Json)} (hnames : ∀ m ∈ ms, m.1 ∈ names)
    (htaken : ∀ m ∈ ms, m.1 ∉ taken) (hdistinct : (ms.map Prod.fst).Nodup) (state : σ) :
    members names put taken state (ms.map fun m => (some m.1, m.2)) =
      ms.foldlM (fun state m => put m.1 m.2 state) state := by
  induction ms generalizing taken state with
  | nil => rfl
  | cons m ms ih =>
    rw [List.forall_mem_cons] at hnames htaken
    rw [List.map_cons, List.nodup_cons] at hdistinct
    rw [List.map_cons, members, if_pos ⟨hnames.1, htaken.1⟩, List.foldlM_cons]
    have hrest : ∀ m' ∈ ms, m'.1 ∉ m.1 :: taken := by
      intro m' hm' hmem
      rcases List.mem_cons.1 hmem with heq | hmem
      · exact hdistinct.1 (List.mem_map.2 ⟨m', hm', heq⟩)
      · exact htaken.2 m' hm' hmem
    exact bind_congr fun state' => ih hnames.2 hrest hdistinct.2 state'

/-- Members are read if and only if all of them are known, none stands there twice, and each can be
put to those before it. -/
theorem members_eq_ok_iff {σ : Type} {names : List String} {put : String → Json → σ → Result σ}
    {taken : List String} {ms : List (Option String × Json)} {state result : σ} :
    members names put taken state ms = .ok result ↔ ∃ es : List (String × Json),
      ms = es.map (fun m => (some m.1, m.2)) ∧ (∀ m ∈ es, m.1 ∈ names) ∧ (∀ m ∈ es, m.1 ∉ taken) ∧
        (es.map Prod.fst).Nodup ∧
          es.foldlM (fun state m => put m.1 m.2 state) state = .ok result := by
  constructor
  · intro h
    induction ms generalizing taken state with
    | nil => exact ⟨[], rfl, by simp, by simp, List.nodup_nil, h⟩
    | cons m ms ih =>
      obtain ⟨_ | name, value⟩ := m
      · cases h
      rw [members] at h
      split at h
      · rename_i hname
        obtain ⟨next, hput, hrest⟩ := bind_eq_ok h
        obtain ⟨es, rfl, hnames, htaken, hdistinct, hfold⟩ := ih hrest
        have hfold' : ((name, value) :: es).foldlM (fun state m => put m.1 m.2 state) state =
            .ok result := by
          rw [List.foldlM_cons, hput]
          exact hfold
        refine ⟨(name, value) :: es, rfl, List.forall_mem_cons.2 ⟨hname.1, hnames⟩,
          List.forall_mem_cons.2 ⟨hname.2, fun m hm => ?_⟩, ?_, hfold'⟩
        · exact fun hmem => htaken m hm (List.mem_cons_of_mem name hmem)
        · refine List.nodup_cons.2 ⟨fun hmem => ?_, hdistinct⟩
          obtain ⟨m, hm, heq⟩ := List.mem_map.1 hmem
          exact htaken m hm (heq ▸ List.mem_cons_self)
      · cases h
  · rintro ⟨es, rfl, hnames, htaken, hdistinct, hfold⟩
    rw [members_map hnames htaken hdistinct, hfold]

/-- A record with known members, none of them twice, is read member by member. -/
theorem record_record {σ : Type} {names : List String} {put : String → Json → σ → Result σ}
    {ms : List (String × Json)} (hnames : ∀ m ∈ ms, m.1 ∈ names)
    (hdistinct : (ms.map Prod.fst).Nodup) (state : σ) :
    record names put state (.record ms) =
      ms.foldlM (fun state m => put m.1 m.2 state) state :=
  members_map hnames (fun _ _ => List.not_mem_nil) hdistinct state

/-- A tag in front is taken off. -/
theorem tagged_record {α : Type} {name : String} {words : List (String × α)} {w : String} {a : α}
    (hword : words.find? (fun e => e.1 == w) = some (w, a)) {ms : List (String × Json)}
    (hname : name ∉ ms.map Prod.fst) (whole : Bool) :
    tagged name words whole (.record ((name, .text w) :: ms)) = .ok (a, .record ms) := by
  have hrest : ∀ m ∈ ms.map fun m => (some m.1, m.2), (m.1 == some name) = false := by
    intro m hm
    obtain ⟨m', hm', rfl⟩ := List.mem_map.1 hm
    refine beq_eq_false_iff_ne.2 fun heq => hname ?_
    exact List.mem_map.2 ⟨m', hm', Option.some.inj heq⟩
  have hown : (ms.map fun m => (some m.1, m.2)).filter (fun m => m.1 == some name) = [] := by
    rw [List.filter_eq_nil_iff]
    intro m hm
    rw [hrest m hm]
    exact Bool.false_ne_true
  have hother : (ms.map fun m => (some m.1, m.2)).filter (fun m => m.1 != some name) =
      ms.map fun m => (some m.1, m.2) := by
    rw [List.filter_eq_self]
    intro m hm
    rw [bne, hrest m hm]
    rfl
  simp only [Json.record, tagged, List.map_cons, List.filter_cons, beq_self_eq_true,
    bne_self_eq_false, if_true, hown, hother]
  rw [Json.text, tagWord, hword]
  rfl

/-! ### Entries -/

theorem imageFile_toJson (f : ImageFile) : imageFile f.toJson = .ok f := by
  rw [ImageFile.toJson, imageFile, record_record (by simp) (by simp)]
  simp only [List.foldlM_cons, List.foldlM_nil]
  rw [word_text (ImageFormat.ofText?_text f.format)]
  rfl

theorem colorValue_toJson (v : ColorValue) : colorValue v.toJson = .ok v := by
  cases v with
  | single color =>
    rw [ColorValue.toJson, colorValue, tagged_record rfl (by simp)]
    simp only [bind, Except.bind]
    rw [record_record (by simp) (by simp)]
    simp only [List.foldlM_cons, List.foldlM_nil]
    rw [parsed_text (Color.ofText?_text color)]
    rfl
  | themed light dark =>
    rw [ColorValue.toJson, colorValue, tagged_record rfl (by simp)]
    simp only [bind, Except.bind]
    rw [record_record (by simp) (by simp)]
    simp only [List.foldlM_cons, List.foldlM_nil]
    rw [parsed_text (Color.ofText?_text light), parsed_text (Color.ofText?_text dark)]
    rfl

theorem valueMember_fst (k : Kind) (v : k.Value) : (k.valueMember v).1 = valueName k := by
  cases k <;> rfl

/-- A value is read from the member that holds it. -/
theorem value_valueMember (k : Kind) (v : k.Value) : value k (k.valueMember v).2 = .ok v := by
  have hlocale : ∀ l : Locale, valid (Locale.ofText? l.text) = .ok l := by
    intro l
    rw [Locale.ofText?_text]
    rfl
  cases k with
  | strings => exact map_toJson hlocale text_text v
  | plurals =>
    refine map_toJson hlocale (map_toJson ?_ text_text) v
    intro q
    rw [Quantity.ofText?_text]
    rfl
  | images =>
    refine map_toJson ?_ imageFile_toJson v
    intro s
    rw [Scale.ofText?_text]
    rfl
  | colors => exact colorValue_toJson v

theorem entry_record (k : Kind) (e : Entry k) :
    entry k (.record [("key", .text e.key.text), k.valueMember e.value]) = .ok e := by
  have hmember : k.valueMember e.value = (valueName k, (k.valueMember e.value).2) :=
    Prod.ext (valueMember_fst k e.value) rfl
  have hne : valueName k ≠ "key" := by cases k <;> decide
  rw [entry, hmember, record_record]
  · simp only [List.foldlM_cons, List.foldlM_nil]
    rw [parsed_text (Key.ofText?_text e.key), value_valueMember]
    simp [hne, bind, Except.bind, pure, Except.pure, required]
  · simp
  · simp [Ne.symm hne]

/-- **An entry of any kind is read as it was written.** -/
theorem resource_toJson (r : Resource) : resource r.toJson = .ok r := by
  obtain ⟨k, e⟩ := r
  have hword : [("string", Kind.strings), ("plural", .plurals), ("image", .images),
      ("color", .colors)].find? (fun w => w.1 == k.entryWord) = some (k.entryWord, k) := by
    cases k <;> rfl
  have hname : "kind" ∉ [("key", Json.text e.key.text), k.valueMember e.value].map Prod.fst := by
    rw [List.map_cons, List.map_cons, valueMember_fst]
    cases k <;> simp [valueName]
  show resource (.record [("kind", .text k.entryWord), ("key", .text e.key.text),
    k.valueMember e.value]) = _
  rw [resource, tagged_record hword hname]
  simp only [bind, Except.bind]
  rw [entry_record]
  rfl

end Decode

/-! ### Containers -/

namespace Container

theorem toJsonAll_eq_map (cs : List Container) : toJsonAll cs = cs.map toJson := by
  induction cs with
  | nil => rfl
  | cons c cs ih => rw [toJsonAll, ih, List.map_cons]

/-- A container opens more than those below it. -/
theorem depth_nested_lt {name : String} {shape : Shape} {values : List Resource}
    {nested : List Container} {c : Container} (hc : c ∈ nested) :
    c.toJson.depth < (node name shape values nested).toJson.depth := by
  have hmember : ∀ m ∈ shape.members name ++ [("values", Json.array (values.map Resource.toJson)),
      ("nested", Json.array (toJsonAll nested))],
      m.2.depth < (node name shape values nested).toJson.depth := by
    intro m hm
    exact Nat.lt_succ_of_le (Json.depthMembers_le.1 (Nat.le_refl _) (some m.1, m.2)
      (List.mem_map.2 ⟨m, hm, rfl⟩))
  have hitem : c.toJson.depth < (Json.array (toJsonAll nested)).depth := by
    rw [toJsonAll_eq_map]
    exact Nat.lt_succ_of_le (Json.depthItems_le.1 (Nat.le_refl _) _ (List.mem_map_of_mem hc))
  exact Nat.lt_trans hitem (hmember ("nested", _) (by simp))

end Container

namespace Decode

/-- The members of a container behind its tag, read one after the other. -/
theorem object_record {name : String} {type : Kind} {role : Role} {visibility : Visibility}
    {values : List Resource} {nested : List Container} {read : Json → Result (List Container)}
    {nestedJson : Json} (hnested : read nestedJson = .ok nested) :
    record objectNames (ContainerParts.put read) {} (.record [("name", .text name),
      ("resource_type", .text type.text), ("kind", .text role.text),
      ("visibility", .text visibility.text), ("values", .array (values.map Resource.toJson)),
      ("nested", nestedJson)]) =
      .ok ⟨some name, some type, some role, some visibility, some values, nested⟩ := by
  have hvalues : list resource (.array (values.map Resource.toJson)) = .ok values :=
    list_map fun r _ => resource_toJson r
  rw [record_record (by simp [objectNames]) (by simp)]
  simp only [List.foldlM_cons, List.foldlM_nil, ContainerParts.put, text_text,
    word_text (Kind.ofText?_text type), word_text (Role.ofText?_text role),
    word_text (Visibility.ofText?_text visibility), hvalues, hnested]
  rfl

theorem group_record {name : String} {values : List Resource} {nested : List Container}
    {read : Json → Result (List Container)} {nestedJson : Json}
    (hnested : read nestedJson = .ok nested) :
    record groupNames (ContainerParts.put read) {} (.record [("name", .text name),
      ("values", .array (values.map Resource.toJson)), ("nested", nestedJson)]) =
      .ok ⟨some name, none, none, none, some values, nested⟩ := by
  have hvalues : list resource (.array (values.map Resource.toJson)) = .ok values :=
    list_map fun r _ => resource_toJson r
  rw [record_record (by simp [groupNames]) (by simp)]
  simp only [List.foldlM_cons, List.foldlM_nil, ContainerParts.put, text_text, hvalues, hnested]
  rfl

mutual

/-- **A container is read as it was written where there is room for what it opens.** -/
theorem container_toJson {room : Nat} (whole : Bool) : ∀ c : Container, c.toJson.depth ≤ room →
    container room whole c.toJson = .ok c
  | .node name shape values nested, h => by
    have hroom : 0 < (Container.node name shape values nested).toJson.depth := by
      rw [Container.toJson, Json.record, Json.depth]
      exact Nat.succ_pos _
    obtain ⟨room, rfl⟩ : ∃ r, room = r + 1 := ⟨room - 1, by omega⟩
    have hnested :
        list (container room true) (.array (Container.toJsonAll nested)) = .ok nested := by
      rw [Container.toJsonAll_eq_map]
      refine list_map (containers_toJson true nested fun c hc => ?_)
      have hlt : c.toJson.depth < (Container.node name shape values nested).toJson.depth :=
        Container.depth_nested_lt hc
      omega
    cases shape with
    | object type role visibility =>
      rw [Container.toJson, container, Shape.members]
      simp only [List.cons_append, List.nil_append]
      rw [tagged_record rfl (by simp)]
      simp only [bind, Except.bind]
      rw [object_record hnested]
      rfl
    | group =>
      rw [Container.toJson, container, Shape.members]
      simp only [List.cons_append, List.nil_append]
      rw [tagged_record rfl (by simp)]
      simp only [bind, Except.bind]
      rw [group_record hnested]
      rfl

theorem containers_toJson {room : Nat} (whole : Bool) : ∀ cs : List Container,
    (∀ c ∈ cs, c.toJson.depth ≤ room) →
      ∀ c ∈ cs, container room whole c.toJson = .ok c
  | [], _ => fun _ hc => absurd hc List.not_mem_nil
  | c :: cs, h => by
    rw [List.forall_mem_cons] at h ⊢
    exact ⟨container_toJson whole c h.1, containers_toJson whole cs h.2⟩

end

end Decode

end ResourceCompiler
