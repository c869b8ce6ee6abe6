import ResourceCompiler.Pass.Linking
import ResourceCompiler.Proofs.Metadata.RoundTrip
import ResourceCompiler.Proofs.Metadata.Validation

/-!
# Assembled objects

The objects that a pass assembles are sound, are not nested deeply, and hold the merged entries.
Therefore the artifact of a pass can be read back, and it contributes these entries to later passes.

* `Configuration.validate_assemble`, `Configuration.depth_assemble_le`.
* `Configuration.ofText?_text_assemble`: the artifact of a pass is read back.
* `Configuration.fragment_assemble`: what it contributes.
-/

namespace ResourceCompiler

/-! ### Entries in an object -/

theorem OrderedMap.depth_toJson_le {κ α : Type} {keyText : κ → String} {valueJson : α → Json}
    {n : Nat} (hvalue : ∀ v, (valueJson v).depth ≤ n) (m : OrderedMap κ α) :
    (m.toJson keyText valueJson).depth ≤ n + 1 := by
  rw [OrderedMap.toJson, Json.depth_record_le, List.forall_mem_map]
  exact fun e _ => hvalue e.2

theorem Kind.depth_valueMember_le (k : Kind) (v : k.Value) : (k.valueMember v).2.depth ≤ 2 := by
  have htext : ∀ s : String, (Json.text s).depth ≤ 0 := fun _ => Nat.le_refl 0
  cases k with
  | strings => exact Nat.le_succ_of_le (OrderedMap.depth_toJson_le htext v)
  | plurals => exact OrderedMap.depth_toJson_le (OrderedMap.depth_toJson_le htext) v
  | images =>
    refine OrderedMap.depth_toJson_le (fun f => ?_) v
    rw [ImageFile.toJson, Json.depth_record_le]
    simp [Json.text, Json.depth]
  | colors =>
    show (ColorValue.toJson v).depth ≤ 2
    cases v <;> rw [ColorValue.toJson, Json.depth_record_le] <;> simp [Json.text, Json.depth]

theorem Resource.depth_toJson_le (r : Resource) : r.toJson.depth ≤ 3 := by
  rw [Resource.toJson, Json.depth_record_le]
  simp [Json.text, Json.depth, Kind.depth_valueMember_le]

/-- A container with nothing below it opens no more than its entries do. -/
theorem Container.depth_node_nil_le (name : String) (shape : Shape) (values : List Resource) :
    (Container.node name shape values []).toJson.depth ≤ 5 := by
  have hvalues : (Json.array (values.map Resource.toJson)).depth ≤ 4 := by
    rw [Json.depth_array_le, List.forall_mem_map]
    exact fun r _ => r.depth_toJson_le
  have hnested : (Json.array (Container.toJsonAll [])).depth ≤ 4 := by decide
  have hmembers : ∀ m ∈ shape.members name, m.2.depth ≤ 4 := by
    cases shape <;> simp [Shape.members, Json.text, Json.depth]
  rw [Container.toJson, Json.depth_record_le, List.forall_mem_append]
  refine ⟨hmembers, ?_⟩
  simp only [List.forall_mem_cons]
  exact ⟨hvalues, hnested, fun _ hm => absurd hm List.not_mem_nil⟩

theorem Container.walkAll_eq_self {cs : List Container} (h : ∀ c ∈ cs, c.nested = []) :
    Container.walkAll cs = cs := by
  induction cs with
  | nil => rfl
  | cons c cs ih =>
    rw [List.forall_mem_cons] at h
    rw [Container.walkAll, Container.walk_eq, h.1, ih h.2]
    rfl

/-! ### The objects of a pass -/

namespace Configuration

variable (c : Configuration) (linked : List Artifact) {merged : Resources}

/-- What an assembled container looks like. -/
theorem eq_node_of_mem_assemble {d : Container} (h : d ∈ c.assemble linked merged) :
    ∃ (k : Kind) (name : String) (role : Role), d =
      .node name (.object k role c.visibility) ((merged k).map fun e => ⟨k, e⟩) [] := by
  obtain ⟨k, -, hk⟩ := List.mem_filterMap.1 h
  unfold objectOf? at hk
  dsimp only at hk
  split at hk
  · cases hk
  · exact ⟨k, _, _, (Option.some.inj hk).symm⟩

theorem walkAll_assemble :
    Container.walkAll (c.assemble linked merged) = c.assemble linked merged := by
  refine Container.walkAll_eq_self fun d hd => ?_
  obtain ⟨k, name, role, rfl⟩ := c.eq_node_of_mem_assemble linked hd
  rfl

/-- **What a pass assembles from merged entries is sound.** -/
theorem validate_assemble (h : ∀ k, ((merged k).map Entry.key).Nodup) :
    Container.validate (c.assemble linked merged) = .ok () := by
  rw [Container.validate_eq_ok_iff, walkAll_assemble]
  intro d hd
  obtain ⟨k, name, role, rfl⟩ := c.eq_node_of_mem_assemble linked hd
  refine Container.ownFault_eq_none_iff.2 ⟨List.pairwise_map.2 ?_, ?_⟩
  · refine (List.pairwise_map.1 (h k)).imp ?_
    rintro e e' hkey ⟨-, heq⟩
    exact hkey heq
  · rintro expected ⟨⟩
    exact List.forall_mem_map.2 fun _ _ => rfl

theorem depth_assemble_le : ∀ d ∈ c.assemble linked merged, d.toJson.depth ≤ 5 := by
  intro d hd
  obtain ⟨k, name, role, rfl⟩ := c.eq_node_of_mem_assemble linked hd
  exact Container.depth_node_nil_le name _ _

/-- **The artifact of a pass is read back.** -/
theorem ofText?_text_assemble (h : ∀ k, ((merged k).map Entry.key).Nodup)
    (sourceSet : SourceSetName) (platform : String) :
    Artifact.ofText? (Artifact.ofContainers sourceSet platform (c.assemble linked merged)).text =
      .ok (.ofContainers sourceSet platform (c.assemble linked merged)) := by
  refine Artifact.ofText?_text_of_validate ?_ ?_
  · rw [Artifact.validate_ofContainers, c.validate_assemble linked h]
    rfl
  · refine Artifact.depth_toJson_le.2 fun d hd => ?_
    exact Nat.le_trans (c.depth_assemble_le linked d hd) (by decide)

/-- The entries in the object of a kind, whether or not it was left out. -/
theorem values_objectOf? (k : Kind) (es : List (Entry k)) :
    ((c.objectOf? linked k es).bind Container.object?).toList.flatMap ResourceObject.values =
      es.map fun e => ⟨k, e⟩ := by
  unfold objectOf?
  dsimp only
  split
  · rename_i h
    rw [List.isEmpty_iff.1 h.1]
    rfl
  · simp [Container.object?]

theorem filterMap_ofKind?_self {k : Kind} (es : List (Entry k)) :
    (es.map fun e => (⟨k, e⟩ : Resource)).filterMap (Resource.ofKind? k) = es := by
  rw [List.filterMap_map]
  have hsome : (Resource.ofKind? k ∘ fun e => ⟨k, e⟩) = some := by
    funext e
    exact Resource.ofKind?_mk k e
  rw [hsome, List.filterMap_some]

theorem filterMap_ofKind?_of_ne {j k : Kind} (h : j ≠ k) (es : List (Entry j)) :
    (es.map fun e => (⟨j, e⟩ : Resource)).filterMap (Resource.ofKind? k) = [] := by
  rw [List.filterMap_eq_nil_iff, List.forall_mem_map]
  intro e _
  exact dif_neg h

/-- **An artifact contributes the entries that its pass merged.** -/
theorem fragment_assemble (sourceSet : SourceSetName) (platform : String) (k : Kind) :
    Artifact.fragment k (.ofContainers sourceSet platform (c.assemble linked merged)) =
      ⟨sourceSet, merged k⟩ := by
  have hvalues : (Container.objects (c.assemble linked merged)).flatMap ResourceObject.values =
      Kind.all.flatMap fun k => (merged k).map fun e => ⟨k, e⟩ := by
    rw [Container.objects, walkAll_assemble, assemble, List.filterMap_filterMap,
      List.filterMap_eq_flatMap_toList, List.flatMap_assoc]
    simp only [values_objectOf?]
  have hentries : ((Container.objects (c.assemble linked merged)).flatMap
      ResourceObject.values).filterMap (Resource.ofKind? k) = merged k := by
    rw [hvalues, List.filterMap_flatMap]
    cases k <;> simp only [Kind.all, List.flatMap_cons, List.flatMap_nil, filterMap_ofKind?_self,
      filterMap_ofKind?_of_ne, ne_eq, reduceCtorEq, not_false_eq_true, List.nil_append,
      List.append_nil]
  rw [Artifact.fragment]
  exact congrArg (Fragment.mk sourceSet) hentries

end Configuration

end ResourceCompiler
