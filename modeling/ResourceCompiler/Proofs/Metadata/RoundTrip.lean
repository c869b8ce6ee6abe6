import ResourceCompiler.Metadata.Artifact
import ResourceCompiler.Proofs.Json.ReadBack
import ResourceCompiler.Proofs.Metadata.Decoding

/-!
# Artifacts read back

The text of an artifact that is sound and not nested too deeply is read back to the artifact. The
limit is exact: what is nested more deeply is refused.

* `Artifact.ofText?_text_ofContainers`: the text of a sound artifact.
* `Container.listOfText?_canonical`: the text that a fingerprint is taken of.
* `Artifact.depth_le_of_ofText?_text`: only what keeps to the limit is read back.
-/

namespace ResourceCompiler

/-! ### What stands in an artifact -/

section Proper

variable {number : List Char → Prop}

theorem OrderedMap.proper_toJson {κ α : Type} {keyText : κ → String} {valueJson : α → Json}
    (hvalue : ∀ v, (valueJson v).Proper number) (m : OrderedMap κ α) :
    (m.toJson keyText valueJson).Proper number := by
  rw [OrderedMap.toJson, Json.proper_record, List.forall_mem_map]
  exact fun e _ => hvalue e.2

theorem Kind.proper_valueMember (k : Kind) (v : k.Value) :
    (k.valueMember v).2.Proper number := by
  cases k with
  | strings => exact OrderedMap.proper_toJson Json.proper_text v
  | plurals => exact OrderedMap.proper_toJson (OrderedMap.proper_toJson Json.proper_text) v
  | images =>
    refine OrderedMap.proper_toJson (fun f => ?_) v
    rw [ImageFile.toJson, Json.proper_record]
    simp [Json.proper_text]
  | colors =>
    show (ColorValue.toJson v).Proper number
    cases v <;> rw [ColorValue.toJson, Json.proper_record] <;> simp [Json.proper_text]

theorem Resource.proper_toJson (r : Resource) : r.toJson.Proper number := by
  rw [Resource.toJson, Json.proper_record]
  simp [Json.proper_text, Kind.proper_valueMember]

theorem Shape.proper_members (name : String) (shape : Shape) :
    ∀ m ∈ shape.members name, m.2.Proper number := by
  cases shape <;> simp [Shape.members, Json.proper_text]

mutual

theorem Container.proper_toJson : ∀ c : Container, c.toJson.Proper number
  | .node name shape values nested => by
    rw [Container.toJson, Json.proper_record, List.forall_mem_append]
    refine ⟨shape.proper_members name, ?_⟩
    simp only [List.forall_mem_cons, Json.proper_array, List.forall_mem_map]
    exact ⟨fun r _ => r.proper_toJson, Json.properItems_iff.1 (Container.proper_toJsonAll nested),
      fun _ hm => absurd hm List.not_mem_nil⟩

theorem Container.proper_toJsonAll : ∀ cs : List Container,
    Json.ProperItems number (Container.toJsonAll cs)
  | [] => trivial
  | c :: cs => ⟨c.proper_toJson, Container.proper_toJsonAll cs⟩

end

end Proper

/-! ### Containers -/

/-- Containers are taken in exactly where their values leave enough room. -/
theorem Decode.containers_toJsonAll {depth : Nat} {cs : List Container}
    (h : ∀ c ∈ cs, c.toJson.depth ≤ Json.maxDepth - depth) :
    Decode.containers depth (.array (Container.toJsonAll cs)) = .ok cs := by
  rw [Container.toJsonAll_eq_map]
  refine Decode.list_map fun c hc => ?_
  have hroom := h c hc
  rw [if_pos ((Json.readable_iff _ _).2 ⟨c.proper_toJson, hroom⟩)]
  exact Decode.container_toJson false c (by omega)

theorem Decode.depth_le_of_containers {depth : Nat} {cs ds : List Container}
    (h : Decode.containers depth (.array (Container.toJsonAll cs)) = .ok ds) :
    ∀ c ∈ cs, c.toJson.depth ≤ Json.maxDepth - depth := by
  rw [Decode.containers, Decode.list, Container.toJsonAll_eq_map, mapM_eq_ok_iff,
    List.forall₂_map_left_iff] at h
  induction h with
  | nil => exact fun _ hc => absurd hc List.not_mem_nil
  | cons hread _ ih =>
    refine List.forall_mem_cons.2 ⟨?_, ih⟩
    by_contra hdeep
    rw [if_neg fun hreadable => hdeep ((Json.readable_iff _ _).1 hreadable).2] at hread
    cases hread

/-- **The text that a fingerprint is taken of tells the containers.** -/
theorem Container.listOfText?_canonical {cs : List Container}
    (h : (Json.array (Container.toJsonAll cs)).depth ≤ Json.maxDepth) :
    Container.listOfText? (Container.canonical cs) = .ok cs := by
  have hproper : (Json.array (Container.toJsonAll cs)).Proper Json.IsNatural :=
    Container.proper_toJsonAll cs
  have hread : Decode.containers 1 (.array (Container.toJsonAll cs)) = .ok cs := by
    refine Decode.containers_toJsonAll fun c hc => ?_
    rw [Container.toJsonAll_eq_map] at h
    exact Json.depth_array_le.1 h _ (List.mem_map_of_mem hc)
  rw [Container.listOfText?, Container.canonical, Json.read_compact hproper]
  exact hread

/-! ### Artifacts -/

namespace Artifact

theorem proper_toJson (a : Artifact) : a.toJson.Proper Json.IsNatural := by
  rw [toJson, Json.proper_record]
  simp only [List.forall_mem_cons, Json.proper_text, true_and]
  exact ⟨⟨schemaVersion, rfl⟩, Container.proper_toJsonAll a.containers,
    fun _ hm => absurd hm List.not_mem_nil⟩

/-- The nesting of an artifact is that of its containers, and two more. -/
theorem depth_toJson_le {a : Artifact} {n : Nat} :
    a.toJson.depth ≤ n + 2 ↔ ∀ c ∈ a.containers, c.toJson.depth ≤ n := by
  have hcontainers : (Json.array (Container.toJsonAll a.containers)).depth ≤ n + 1 ↔
      ∀ c ∈ a.containers, c.toJson.depth ≤ n := by
    rw [Json.depth_array_le, Container.toJsonAll_eq_map, List.forall_mem_map]
  rw [toJson, Json.depth_record_le, ← hcontainers]
  simp only [List.forall_mem_cons, Json.text, Json.natural, Json.depth, Nat.zero_le, true_and]
  exact and_iff_left fun _ hm => absurd hm List.not_mem_nil

theorem envelope_toJson (a : Artifact) : envelope a.toJson = .ok (kindName, schemaVersion) := by
  rfl

/-- What an artifact reads as depends on its containers alone. -/
theorem ofJson_toJson_eq (a : Artifact) :
    ofJson a.toJson = (Decode.containers 2 (.array (Container.toJsonAll a.containers))).map
      fun cs => ⟨a.sourceSet, a.platform, a.fingerprint, cs⟩ := by
  rw [toJson, ofJson, Decode.record_record (by simp [memberNames]) (by simp)]
  simp only [List.foldlM_cons, List.foldlM_nil, Parts.put, Decode.text_text,
    Decode.parsed_text (SourceSetName.ofText?_text a.sourceSet)]
  cases Decode.containers 2 (.array (Container.toJsonAll a.containers)) <;> rfl

theorem ofJson_toJson {a : Artifact} (h : a.toJson.depth ≤ Json.maxDepth) :
    ofJson a.toJson = .ok a := by
  rw [ofJson_toJson_eq, Decode.containers_toJsonAll (depth_toJson_le.1 h)]
  rfl

/-- A sound artifact is read from its text. -/
theorem ofText?_text_of_validate {a : Artifact} (hvalid : a.validate = .ok ())
    (hdepth : a.toJson.depth ≤ Json.maxDepth) : ofText? a.text = .ok a := by
  rw [ofText?, text, Json.read_document a.proper_toJson]
  simp only [Decode.required, mapError_ok, bind, Except.bind, envelope_toJson,
    ofJson_toJson hdepth, hvalid]
  rfl

/-- **Artifacts read back.** The text of sealed containers whose structure is right and which are
not nested too deeply is read as the artifact that was written. -/
theorem ofText?_text_ofContainers (sourceSet : SourceSetName) (platform : String)
    (containers : List Container)
    (hvalid : (ofContainers sourceSet platform containers).validate = .ok ())
    (hdepth : (ofContainers sourceSet platform containers).toJson.depth ≤ Json.maxDepth) :
    ofText? (ofContainers sourceSet platform containers).text =
      .ok (ofContainers sourceSet platform containers) :=
  ofText?_text_of_validate hvalid hdepth

/-- A group with a text that has to be escaped, a plural, and a color for each appearance. -/
def greeting : Artifact :=
  .ofContainers ⟨"main", by decide⟩ "common" [.node "app" .group [] [
    .node "app.MR.strings" (.object .strings .plain .exported)
      [⟨.strings, ⟨"hello", by decide⟩,
        .ofList [(.base, "\"Hi\"\n"), (.tag ⟨"de", by decide⟩ none none, "Hallo")]⟩] [],
    .node "app.MR.plurals" (.object .plurals .plain .internal)
      [⟨.plurals, ⟨"days", by decide⟩,
        .ofList [(.base, .ofList [(.other, "%d days"), (.one, "a day")])]⟩] [],
    .node "app.MR.colors" (.object .colors .plain .internal)
      [⟨.colors, ⟨"ink", by decide⟩, .themed ⟨0, 0, 0, 255⟩ ⟨255, 255, 255, 255⟩⟩] []]]

theorem ofText?_text_greeting :
    greeting.validate = .ok () ∧ greeting.toJson.depth = 9 ∧
      ofText? greeting.text = .ok greeting := by
  have hvalid : greeting.validate = .ok () := by
    rw [greeting, validate_ofContainers]
    rfl
  have hdepth : greeting.toJson.depth = 9 := rfl
  refine ⟨hvalid, hdepth, ofText?_text_ofContainers _ _ _ hvalid ?_⟩
  show greeting.toJson.depth ≤ Json.maxDepth
  rw [hdepth]
  decide

/-- **The limit is exact.** An artifact that is nested more deeply is not read at all. -/
theorem depth_le_of_ofText?_text {a b : Artifact} (h : ofText? a.text = .ok b) :
    a.toJson.depth ≤ Json.maxDepth := by
  cases hcs : Decode.containers 2 (.array (Container.toJsonAll a.containers)) with
  | ok cs => exact depth_toJson_le.2 (Decode.depth_le_of_containers hcs)
  | error e =>
    have hjson : ofJson a.toJson = .error e := by
      rw [ofJson_toJson_eq, hcs]
      rfl
    rw [ofText?, text, Json.read_document a.proper_toJson] at h
    simp only [Decode.required, mapError_ok, mapError_error, bind, Except.bind, envelope_toJson,
      hjson] at h
    cases h

end Artifact

end ResourceCompiler
