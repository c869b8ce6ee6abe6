import ResourceCompiler.Proofs.Metadata.RoundTrip

/-!
# The seal of containers

A fingerprint is taken of a text that tells containers completely: their order and nesting, and
everything in them with its order. Containers with the fingerprint of an artifact are therefore the
containers of the artifact, unless two texts have been found with one digest.

* `Digest.Collide`: different bytes with one digest.
* `Container.canonical_injective`: the text tells the containers.
* `Artifact.Arises`, `Artifact.Arises.fingerprint_eq`: artifacts that are made or read are sealed.
* `Artifact.fingerprint_covers`: what a fingerprint says of containers.
-/

namespace ResourceCompiler

/-! ### Digests -/

namespace Digest

/-- Whether different sequences of bytes have the same digest. -/
def Collide (x y : List UInt8) : Prop := x ≠ y ∧ sha256 x = sha256 y

theorem toList_loop (bytes : ByteArray) (i : Nat) (read : List UInt8) :
    ByteArray.toList.loop bytes i read = read.reverse ++ bytes.data.toList.drop i := by
  fun_induction ByteArray.toList.loop bytes i read with
  | case1 i read h ih =>
    have hi : i < bytes.data.toList.length := h
    have hnext : bytes.get! i = bytes.data.toList[i] := getElem!_pos bytes.data i h
    rw [ih, List.reverse_cons, List.append_assoc, List.singleton_append, hnext,
      List.drop_eq_getElem_cons hi]
  | case2 i read h =>
    have hend : bytes.data.toList.length ≤ i := Nat.le_of_not_lt h
    rw [List.drop_eq_nil_of_le hend, List.append_nil]

theorem toList_eq_data (bytes : ByteArray) : bytes.toList = bytes.data.toList := by
  rw [ByteArray.toList, toList_loop, List.reverse_nil, List.nil_append, List.drop_zero]

theorem toList_injective {x y : ByteArray} (h : x.toList = y.toList) : x = y := by
  rw [toList_eq_data, toList_eq_data] at h
  exact ByteArray.ext (Array.toList_inj.1 h)

end Digest

namespace Text

theorem hexByte_injective {b c : UInt8} (h : hexByte b = hexByte c) : b = c := by
  obtain ⟨hhigh, hlow⟩ := List.cons.inj h
  have hb : b.toNat < 256 := b.toNat_lt
  have hc : c.toNat < 256 := c.toNat_lt
  have heq {m n : Nat} (hm : m < 16) (hn : n < 16) (h : hexDigit m = hexDigit n) : m = n := by
    have hvalue := hexValue?_hexDigit m hm
    rw [h, hexValue?_hexDigit n hn] at hvalue
    exact (Option.some.inj hvalue).symm
  have hdiv := heq (by omega) (by omega) hhigh
  have hmod := heq (by omega) (by omega) (List.cons.inj hlow).1
  exact UInt8.toNat_inj.1 (by omega)

theorem flatMap_hexByte_injective {bs cs : List UInt8}
    (h : bs.flatMap hexByte = cs.flatMap hexByte) : bs = cs := by
  induction bs generalizing cs with
  | nil =>
    cases cs with
    | nil => rfl
    | cons c cs => cases h
  | cons b bs ih =>
    cases cs with
    | nil => cases h
    | cons c cs =>
      rw [List.flatMap_cons, List.flatMap_cons] at h
      obtain ⟨hbyte, hrest⟩ := List.append_inj h rfl
      rw [hexByte_injective hbyte, ih hrest]

end Text

theorem Fingerprint.sha256_eq_of_ofBytes_eq {x y : ByteArray} (h : ofBytes x = ofBytes y) :
    Digest.sha256 x.toList = Digest.sha256 y.toList :=
  Text.flatMap_hexByte_injective (String.ofList_injective (congrArg Fingerprint.text h))

/-! ### Containers -/

/-- **The text that a fingerprint is taken of tells the containers**, whatever their depth. -/
theorem Container.canonical_injective {cs ds : List Container} (h : canonical cs = canonical ds) :
    cs = ds := by
  -- the reader of texts has no limit of its own, and that of containers has room for both lists
  have hjson : Json.array (toJsonAll cs) = Json.array (toJsonAll ds) := by
    have hread (es : List Container) :
        Json.read (canonical es) = some (.array (toJsonAll es)) :=
      Json.read_compact (j := .array (toJsonAll es)) (proper_toJsonAll es)
    exact Option.some.inj ((hread cs).symm.trans (h ▸ hread ds))
  have hdecoded : ∀ es : List Container,
      Decode.list (Decode.container (Json.array (toJsonAll es)).depth false)
        (.array (toJsonAll es)) = .ok es := by
    intro es
    rw [toJsonAll_eq_map]
    have hroom : ∀ e ∈ es, e.toJson.depth ≤ (Json.array (es.map toJson)).depth := fun e he =>
      Json.depth_array_le.1 (Nat.le_succ _) _ (List.mem_map_of_mem he)
    exact Decode.list_map (Decode.containers_toJson false es hroom)
  have hcs := hdecoded cs
  rw [hjson, hdecoded ds] at hcs
  exact (Except.ok.inj hcs).symm

/-! ### Artifacts -/

namespace Artifact

/-- The artifacts that there are: those made of containers, and those read from a text. -/
inductive Arises : Artifact → Prop
  | made (sourceSet : SourceSetName) (platform : String) (containers : List Container) :
    Arises (ofContainers sourceSet platform containers)
  | read {s : String} {a : Artifact} (h : ofText? s = .ok a) : Arises a

theorem validate_of_ofText? {s : String} {a : Artifact} (h : ofText? s = .ok a) :
    a.validate = .ok () := by
  obtain ⟨j, -, h⟩ := bind_eq_ok h
  obtain ⟨⟨kind, version⟩, -, h⟩ := bind_eq_ok h
  dsimp only at h
  split at h
  · cases h
  split at h
  · cases h
  obtain ⟨b, -, h⟩ := bind_eq_ok h
  obtain ⟨⟨⟩, hvalid, h⟩ := bind_eq_ok h
  rw [← Except.ok.inj h]
  exact hvalid

theorem fingerprint_eq_of_validate {a : Artifact} (h : a.validate = .ok ()) :
    a.fingerprint = fingerprintOf a.containers := by
  rw [validate] at h
  split at h
  · exact Eq.symm ‹_›
  · cases h

/-- Artifacts are sealed, however they arise. -/
theorem Arises.fingerprint_eq {a : Artifact} (h : a.Arises) :
    a.fingerprint = fingerprintOf a.containers := by
  cases h with
  | made sourceSet platform containers => rfl
  | read h => exact fingerprint_eq_of_validate (validate_of_ofText? h)

/-- **A fingerprint covers everything.** Lists of containers that differ in anything have different
texts to take a fingerprint of. A text that is accepted with the fingerprint of an artifact holds
the containers of the artifact, if the digests of the two texts do not collide. -/
theorem fingerprint_covers :
    (∀ cs ds : List Container, cs ≠ ds → Container.canonical cs ≠ Container.canonical ds) ∧
    ∀ a : Artifact, a.Arises → ∀ s b, ofText? s = .ok b → b.fingerprint = a.fingerprint →
      ¬ Digest.Collide (Container.canonical a.containers).toUTF8.toList
        (Container.canonical b.containers).toUTF8.toList →
      b.containers = a.containers := by
  refine ⟨fun cs ds hne h => hne (Container.canonical_injective h), ?_⟩
  intro a ha s b hb hfingerprint hcollide
  rw [(Arises.read hb).fingerprint_eq, ha.fingerprint_eq] at hfingerprint
  have hdigest := Fingerprint.sha256_eq_of_ofBytes_eq hfingerprint
  have hbytes := not_not.1 fun hne => hcollide ⟨hne, hdigest.symm⟩
  have htext := String.toByteArray_inj.1 (Digest.toList_injective hbytes)
  exact (Container.canonical_injective htext).symm

end Artifact

/-! ### A scroll and its copy -/

namespace Scroll

/-- A string without any text. -/
def title (key : Key) : Resource := ⟨.strings, key, .empty⟩

/-- Two titles one after the other. -/
def scroll (first second : Key) : Container :=
  .node "scroll.MR.strings" (.object .strings .plain .exported) [title first, title second] []

def dawn : Key := ⟨"dawn", by decide⟩

def dusk : Key := ⟨"dusk", by decide⟩

def original : Artifact := .ofContainers ⟨"scrollMain", by decide⟩ "common" [scroll dawn dusk]

/-- The same containers under another origin. -/
def copy : Artifact := .ofContainers ⟨"scrollJvm", by decide⟩ "jvm" [scroll dawn dusk]

end Scroll

/-- The titles in another order have another text. The text of the copy is accepted with the
fingerprint of the original and has its containers. -/
theorem Artifact.fingerprint_covers_scroll :
    Container.canonical [Scroll.scroll Scroll.dawn Scroll.dusk] ≠
        Container.canonical [Scroll.scroll Scroll.dusk Scroll.dawn] ∧
      ∃ b, ofText? Scroll.copy.text = .ok b ∧ b.sourceSet ≠ Scroll.original.sourceSet ∧
        b.fingerprint = Scroll.original.fingerprint ∧
        b.containers = Scroll.original.containers := by
  obtain ⟨htexts, hcovers⟩ := fingerprint_covers
  have hvalid : Scroll.copy.validate = .ok () := by
    rw [Scroll.copy, validate_ofContainers]
    rfl
  have hread : ofText? Scroll.copy.text = .ok Scroll.copy :=
    ofText?_text_of_validate hvalid (depth_toJson_le.2 (by decide))
  have hseal : Scroll.copy.fingerprint = Scroll.original.fingerprint := rfl
  refine ⟨htexts _ _ fun h => ?_, Scroll.copy, hread, by decide, hseal, ?_⟩
  · have hkeys := congrArg (List.flatMap fun c => c.values.map Resource.key) h
    exact absurd hkeys (by decide)
  · exact hcovers Scroll.original (.made _ _ _) _ _ hread hseal fun hcollide => hcollide.1 rfl

end ResourceCompiler
