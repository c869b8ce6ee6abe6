import Mathlib.Data.List.Permutation
import ResourceCompiler.Proofs.Metadata.Sealing
import ResourceCompiler.Proofs.Metadata.Validation

/-!
# What a text says it is

A text that spells an object with one kind and one version is identified by the two alone, whatever
else the object holds and however deep it is: a foreign kind and another version are reported before
anything else in it is looked at. Where both are right, an artifact is taken from the object exactly
if its members are those of an artifact, each once and each what it has to be, the recorded
fingerprint is that of the containers, and these are sound.

* `Artifact.Tells`: texts with one kind and one version.
* `Artifact.envelope_of_tells`: the kind and the version are found.
* `Artifact.Parts.Field`: which member sets which part of an artifact.
* `Artifact.Records`, `Artifact.ofJson_eq_ok_iff`: the members that make up an artifact.
* `Artifact.ofText?_of_tells`: what is reported, and when an artifact is accepted.
-/

namespace ResourceCompiler

/-- The items that pass one of two tests, where each of the two is passed by one item only. -/
theorem filter_eq_pair {α : Type} {p q r : α → Bool} {l : List α} {a b : α}
    (hp : l.filter p = [a]) (hq : l.filter q = [b])
    (hr : ∀ x ∈ l, r x = true ↔ p x = true ∨ q x = true)
    (hpq : ∀ x ∈ l, p x = true → ¬ q x = true) : l.filter r = [a, b] ∨ l.filter r = [b, a] := by
  have hfirst : (l.filter r).filter p = [a] := by
    rw [← hp, List.filter_filter]
    refine List.filter_congr fun x hx => ?_
    rw [Bool.eq_iff_iff, Bool.and_eq_true, hr x hx]
    exact ⟨fun h => h.1, fun h => ⟨h, .inl h⟩⟩
  have hsecond : (l.filter r).filter (fun x => !p x) = [b] := by
    rw [← hq, List.filter_filter]
    refine List.filter_congr fun x hx => ?_
    rw [Bool.eq_iff_iff, Bool.and_eq_true, Bool.not_eq_true', Bool.eq_false_iff, hr x hx]
    exact ⟨fun h => h.2.resolve_left h.1, fun h => ⟨fun hpx => hpq x hx hpx h, .inr h⟩⟩
  have hperm := List.filter_append_perm p (l.filter r)
  rw [hfirst, hsecond] at hperm
  exact List.perm_pair.1 hperm.symm

/-- A number that a natural number is written as has its value. -/
theorem Json.natural?_toDigits (n : Nat) : natural? (Nat.toDigits 10 n) = some n := by
  have hdigits : (Nat.toDigits 10 n).all Char.isDigit = true := by
    rw [List.all_eq_true]
    exact fun d hd => Nat.isDigit_of_mem_toDigits (by decide) (by decide) hd
  rw [natural?, if_pos ⟨Nat.toDigits_ne_nil, hdigits⟩]
  exact congrArg some (Nat.ofDigitChars_toDigits (b := 10) (by decide) (by decide))

/-- Every member that is spelled has a text as its name. -/
theorem Json.SpellsMembers.isSome {cs : List Char} {members : List (Option String × Json)}
    (h : SpellsMembers cs members) : ∀ m ∈ members, m.1.isSome = true := by
  induction members generalizing cs with
  | nil => exact fun m hm => absurd hm List.not_mem_nil
  | cons m members ih =>
    have hname {cs : List Char} (h : SpellsMember cs m) : m.1.isSome = true := by
      cases h with
      | named => rfl
    cases h with
    | last h => exact fun m' hm' => List.mem_singleton.1 hm' ▸ hname h
    | next h hrest => exact List.forall_mem_cons.2 ⟨hname h, ih hrest⟩

theorem Json.SpellsElement.isSome {cs : List Char} {members : List (Option String × Json)}
    (h : SpellsElement cs (.object members)) : ∀ m ∈ members, m.1.isSome = true := by
  obtain ⟨-, h, -⟩ := h
  cases h with
  | noMembers => exact fun m hm => absurd hm List.not_mem_nil
  | object h => exact h.isSome

namespace Artifact

variable {s kind : String} {v : Nat} {ms : List (Option String × Json)} {a : Artifact}

/-! ### Kind and version -/

/-- Whether a text spells an object in which one member tells the kind, a text, and one tells the
version, a whole number of 32 bits in digits alone. Nothing is asked of the other members and of
their order. -/
structure Tells (s : String) (ms : List (Option String × Json)) (kind : String) (v : Nat) :
    Prop where
  spells : Json.SpellsElement s.toList (.object ms)
  ofKind : ms.filter (fun m => m.1 = some "kind") = [(some "kind", .text kind)]
  ofVersion : ms.filter (fun m => m.1 = some "schema_version") =
    [(some "schema_version", .natural v)]
  fits : v < Nat.pow 2 32

theorem version_natural (h : v < Nat.pow 2 32) : version (.natural v) = .ok v := by
  rw [Json.natural, version, Json.natural?_toDigits]
  exact if_pos h

/-- The kind and the version are found among all other members. -/
theorem envelope_of_tells (h : Tells s ms kind v) : envelope (.object ms) = .ok (kind, v) := by
  have hown : ∀ m ∈ ms, (m.1.all (· ∈ ["kind", "schema_version"])) = true ↔
      decide (m.1 = some "kind") = true ∨ decide (m.1 = some "schema_version") = true := by
    intro m hm
    obtain ⟨name, hname⟩ := Option.isSome_iff_exists.1 (h.spells.isSome m hm)
    simp [hname]
  have hapart : ∀ m ∈ ms, decide (m.1 = some "kind") = true →
      ¬ decide (m.1 = some "schema_version") = true := by
    intro m _ hkind hversion
    rw [decide_eq_true_iff] at hkind hversion
    exact absurd (hkind.symm.trans hversion) (by decide)
  have hversion := version_natural h.fits
  simp only [envelope]
  -- the two stand in either order
  rcases filter_eq_pair h.ofKind h.ofVersion hown hapart with hpair | hpair
  all_goals
    rw [hpair]
    simp [Decode.record, Decode.members, Decode.text, Json.text, hversion, Decode.required, bind,
      Except.bind, pure, Except.pure]

/-! ### Members of an artifact -/

namespace Parts

/-- Whether all parts are as before, apart from that of a member. -/
structure Frame (member : String) (p q : Parts) : Prop where
  kind : member ≠ "kind" → q.kind = p.kind
  version : member ≠ "schema_version" → q.version = p.version
  sourceSet : member ≠ "source_set" → q.sourceSet = p.sourceSet
  platform : member ≠ "platform" → q.platform = p.platform
  fingerprint : member ≠ "fingerprint" → q.fingerprint = p.fingerprint
  containers : member ≠ "containers" → q.containers = p.containers

theorem frame_of_put {member : String} {j : Json} {p q : Parts} (hmember : member ∈ memberNames)
    (h : put member j p = .ok q) : Frame member p q := by
  simp only [memberNames, List.mem_cons, List.not_mem_nil, or_false] at hmember
  rcases hmember with rfl | rfl | rfl | rfl | rfl | rfl
  all_goals
    obtain ⟨b, -, hq⟩ := bind_eq_ok h
    rw [← Except.ok.inj hq]
    constructor <;> simp

/-- Whether a part is what the member of a name is read as, and is left alone by all others. -/
structure Field {β : Type} (name : String) (read : Json → Decode.Result β)
    (field : Parts → Option β) : Prop where
  empty : field {} = none
  own : ∀ {j p q}, put name j p = .ok q → ∃ b, read j = .ok b ∧ field q = some b
  succeeds : ∀ {j b}, read j = .ok b → ∀ p, ∃ q, put name j p = .ok q
  other : ∀ {member j p q}, member ∈ memberNames → member ≠ name → put member j p = .ok q →
    field q = field p

theorem field_of_put {β : Type} {name : String} {read : Json → Decode.Result β}
    {field : Parts → Option β} {set : β → Parts → Parts} (hempty : field {} = none)
    (hput : ∀ j p, put name j p = do return set (← read j) p)
    (hset : ∀ b p, field (set b p) = some b)
    (hother : ∀ {member p q}, Frame member p q → member ≠ name → field q = field p) :
    Field name read field where
  empty := hempty
  own := by
    intro j p q h
    rw [hput] at h
    obtain ⟨b, hread, hq⟩ := bind_eq_ok h
    rw [← Except.ok.inj hq]
    exact ⟨b, hread, hset b p⟩
  succeeds := by
    intro j b hread p
    rw [hput, hread]
    exact ⟨set b p, rfl⟩
  other := fun hmember hne h => hother (frame_of_put hmember h) hne

theorem field_kind : Field "kind" Decode.text Parts.kind :=
  field_of_put rfl (fun _ _ => rfl) (fun _ _ => rfl) Frame.kind

theorem field_version : Field "schema_version" Artifact.version Parts.version :=
  field_of_put rfl (fun _ _ => rfl) (fun _ _ => rfl) Frame.version

theorem field_sourceSet :
    Field "source_set" (Decode.parsed SourceSetName.ofText?) Parts.sourceSet :=
  field_of_put rfl (fun _ _ => rfl) (fun _ _ => rfl) Frame.sourceSet

theorem field_platform : Field "platform" Decode.text Parts.platform :=
  field_of_put rfl (fun _ _ => rfl) (fun _ _ => rfl) Frame.platform

theorem field_fingerprint :
    Field "fingerprint" (fun j => (Decode.text j).map Fingerprint.mk) Parts.fingerprint := by
  refine @field_of_put _ _ _ _ (fun b p => { p with fingerprint := some b }) rfl (fun j p => ?_)
    (fun _ _ => rfl) Frame.fingerprint
  rw [put]
  cases Decode.text j <;> rfl

theorem field_containers : Field "containers" (Decode.containers 2) Parts.containers :=
  field_of_put rfl (fun _ _ => rfl) (fun _ _ => rfl) Frame.containers

variable {β : Type} {name : String} {read : Json → Decode.Result β} {field : Parts → Option β}
  {es : List (String × Json)} {p q : Parts}

/-- After a run over members, each part is what its own member is read as. -/
theorem Field.of_foldlM (hfield : Field name read field) (hknown : ∀ m ∈ es, m.1 ∈ memberNames)
    (hdistinct : (es.map Prod.fst).Nodup)
    (h : es.foldlM (fun parts m => put m.1 m.2 parts) p = .ok q) :
    (∀ j, (name, j) ∈ es → ∃ b, read j = .ok b ∧ field q = some b) ∧
      (name ∉ es.map Prod.fst → field q = field p) := by
  induction es generalizing p with
  | nil =>
    rw [← Except.ok.inj h]
    exact ⟨fun j hj => absurd hj List.not_mem_nil, fun _ => rfl⟩
  | cons m es ih =>
    rw [List.forall_mem_cons] at hknown
    rw [List.map_cons, List.nodup_cons] at hdistinct
    rw [List.foldlM_cons] at h
    obtain ⟨next, hput, hrest⟩ := bind_eq_ok h
    obtain ⟨hmem, hnot⟩ := ih hknown.2 hdistinct.2 hrest
    refine ⟨fun j hj => ?_, fun hname => ?_⟩
    · rcases List.mem_cons.1 hj with rfl | hj
      · obtain ⟨b, hread, hset⟩ := hfield.own hput
        exact ⟨b, hread, (hnot hdistinct.1).trans hset⟩
      · exact hmem j hj
    · rw [List.map_cons, List.mem_cons, not_or] at hname
      exact (hnot hname.2).trans (hfield.other hknown.1 (Ne.symm hname.1) hput)

/-- A run over members succeeds once each of them can be put to any parts. -/
theorem foldlM_eq_ok (h : ∀ m ∈ es, ∀ p, ∃ q, put m.1 m.2 p = .ok q) (p : Parts) :
    ∃ q, es.foldlM (fun parts m => put m.1 m.2 parts) p = .ok q := by
  induction es generalizing p with
  | nil => exact ⟨p, rfl⟩
  | cons m es ih =>
    rw [List.forall_mem_cons] at h
    obtain ⟨next, hput⟩ := h.1 p
    obtain ⟨q, hrest⟩ := ih h.2 next
    refine ⟨q, ?_⟩
    rw [List.foldlM_cons, hput]
    exact hrest

end Parts

/-! ### Objects that are read as an artifact -/

/-- Whether an object has a member that is read as something. -/
def Gives {β : Type} (ms : List (Option String × Json)) (name : String)
    (read : Json → Decode.Result β) (b : β) : Prop := ∃ j, (some name, j) ∈ ms ∧ read j = .ok b

/-- Whether the members of an object are those of an artifact: no other ones, none of them twice,
and each of them what it has to be. -/
structure Records (ms : List (Option String × Json)) (a : Artifact) : Prop where
  known : ∀ m ∈ ms, ∃ name ∈ memberNames, m.1 = some name
  distinct : (ms.map Prod.fst).Nodup
  kind : ∃ b, Gives ms "kind" Decode.text b
  version : ∃ b, Gives ms "schema_version" version b
  sourceSet : Gives ms "source_set" (Decode.parsed SourceSetName.ofText?) a.sourceSet
  platform : Gives ms "platform" Decode.text a.platform
  fingerprint : Gives ms "fingerprint" (fun j => (Decode.text j).map Fingerprint.mk) a.fingerprint
  containers : Gives ms "containers" (Decode.containers 2) a.containers

theorem required_eq_ok {α : Type} {o : Option α} {b : α} (h : Decode.required o = .ok b) :
    o = some b := by
  cases o with
  | none => cases h
  | some c => exact congrArg some (Except.ok.inj h)

/-- A part that has been read comes from a member. -/
theorem Parts.Field.gives {β : Type} {name : String} {read : Json → Decode.Result β}
    {field : Parts → Option β} (hfield : Field name read field) {es : List (String × Json)}
    (hknown : ∀ m ∈ es, m.1 ∈ memberNames) (hdistinct : (es.map Prod.fst).Nodup) {q : Parts}
    (h : es.foldlM (fun parts m => put m.1 m.2 parts) {} = .ok q) {b : β}
    (hb : Decode.required (field q) = .ok b) :
    Gives (es.map fun m => (some m.1, m.2)) name read b := by
  have hb := required_eq_ok hb
  obtain ⟨hmem, hnot⟩ := hfield.of_foldlM hknown hdistinct h
  by_cases hname : name ∈ es.map Prod.fst
  · obtain ⟨m, hm, rfl⟩ := List.mem_map.1 hname
    obtain ⟨c, hread, hc⟩ := hmem m.2 hm
    obtain rfl := Option.some.inj (hb.symm.trans hc)
    exact ⟨m.2, List.mem_map.2 ⟨m, hm, rfl⟩, hread⟩
  · rw [hnot hname, hfield.empty] at hb
    cases hb

/-- A member sets its part. -/
theorem Gives.required {β : Type} {name : String} {read : Json → Decode.Result β} {b : β}
    {es : List (String × Json)} (h : Gives (es.map fun m => (some m.1, m.2)) name read b)
    {field : Parts → Option β} (hfield : Parts.Field name read field)
    (hknown : ∀ m ∈ es, m.1 ∈ memberNames) (hdistinct : (es.map Prod.fst).Nodup) {q : Parts}
    (hq : es.foldlM (fun parts m => Parts.put m.1 m.2 parts) {} = .ok q) :
    Decode.required (field q) = .ok b := by
  obtain ⟨j, hj, hread⟩ := h
  obtain ⟨m, hm, heq⟩ := List.mem_map.1 hj
  obtain ⟨hname, rfl⟩ := Prod.mk.inj heq
  obtain ⟨c, hread', hc⟩ := (hfield.of_foldlM hknown hdistinct hq).1 m.2
    (Option.some.inj hname ▸ hm)
  rw [hread] at hread'
  rw [hc, Except.ok.inj hread']
  rfl

/-- The only member of a name is the one that gives what is read. -/
theorem Gives.read_of_mem {β : Type} {name : String} {read : Json → Decode.Result β} {b : β}
    {es : List (String × Json)} (h : Gives (es.map fun m => (some m.1, m.2)) name read b)
    (hdistinct : (es.map Prod.fst).Nodup) {j : Json} (hj : (name, j) ∈ es) : read j = .ok b := by
  obtain ⟨i, hi, hread⟩ := h
  obtain ⟨m, hm, heq⟩ := List.mem_map.1 hi
  obtain ⟨hname, rfl⟩ := Prod.mk.inj heq
  have hsame := List.inj_on_of_nodup_map hdistinct hm hj (Option.some.inj hname)
  rwa [hsame] at hread

theorem nodup_names_iff {es : List (String × Json)} :
    ((es.map fun m => (some m.1, m.2)).map Prod.fst).Nodup ↔ (es.map Prod.fst).Nodup := by
  have hnames : (es.map fun m => (some m.1, m.2)).map Prod.fst = (es.map Prod.fst).map some := by
    rw [List.map_map, List.map_map]
    rfl
  rw [hnames]
  exact List.nodup_map_iff fun _ _ => Option.some.inj

/-- **Objects that are read as an artifact.** -/
theorem ofJson_eq_ok_iff : ofJson (.object ms) = .ok a ↔ Records ms a := by
  constructor
  · intro hjson
    obtain ⟨q, hrecord, h⟩ := bind_eq_ok hjson
    clear hjson
    obtain ⟨es, rfl, hknown, -, hdistinct, hfold⟩ := Decode.members_eq_ok_iff.1 hrecord
    obtain ⟨kind, hkind, h⟩ := bind_eq_ok h
    obtain ⟨v, hversion, h⟩ := bind_eq_ok h
    obtain ⟨sourceSet, hsourceSet, h⟩ := bind_eq_ok h
    obtain ⟨platform, hplatform, h⟩ := bind_eq_ok h
    obtain ⟨fingerprint, hfingerprint, h⟩ := bind_eq_ok h
    obtain ⟨containers, hcontainers, h⟩ := bind_eq_ok h
    obtain rfl := Except.ok.inj h
    refine ⟨?_, ?_, ⟨kind, ?_⟩, ⟨v, ?_⟩, ?_, ?_, ?_, ?_⟩
    · exact List.forall_mem_map.2 fun m hm => ⟨m.1, hknown m hm, rfl⟩
    · exact nodup_names_iff.2 hdistinct
    · exact Parts.field_kind.gives hknown hdistinct hfold hkind
    · exact Parts.field_version.gives hknown hdistinct hfold hversion
    · exact Parts.field_sourceSet.gives hknown hdistinct hfold hsourceSet
    · exact Parts.field_platform.gives hknown hdistinct hfold hplatform
    · exact Parts.field_fingerprint.gives hknown hdistinct hfold hfingerprint
    · exact Parts.field_containers.gives hknown hdistinct hfold hcontainers
  · intro h
    obtain ⟨es, rfl⟩ : ∃ es : List (String × Json), ms = es.map fun m => (some m.1, m.2) := by
      refine ⟨ms.map fun m => (m.1.getD "", m.2), ?_⟩
      rw [List.map_map]
      refine (List.map_id ms).symm.trans (List.map_congr_left fun m hm => ?_)
      obtain ⟨name, -, hname⟩ := h.known m hm
      exact Prod.ext (by simp [hname]) rfl
    have hknown : ∀ m ∈ es, m.1 ∈ memberNames := by
      intro m hm
      obtain ⟨name, hname, heq⟩ := h.known _ (List.mem_map_of_mem hm)
      exact Option.some.inj heq ▸ hname
    have hdistinct : (es.map Prod.fst).Nodup := nodup_names_iff.1 h.distinct
    obtain ⟨kind, hkind⟩ := h.kind
    obtain ⟨v, hversion⟩ := h.version
    have hput : ∀ m ∈ es, ∀ p, ∃ q, Parts.put m.1 m.2 p = .ok q := by
      rintro ⟨name, j⟩ hm
      have hname := hknown _ hm
      simp only [memberNames, List.mem_cons, List.not_mem_nil, or_false] at hname
      rcases hname with rfl | rfl | rfl | rfl | rfl | rfl
      · exact Parts.field_kind.succeeds (hkind.read_of_mem hdistinct hm)
      · exact Parts.field_version.succeeds (hversion.read_of_mem hdistinct hm)
      · exact Parts.field_sourceSet.succeeds (h.sourceSet.read_of_mem hdistinct hm)
      · exact Parts.field_platform.succeeds (h.platform.read_of_mem hdistinct hm)
      · exact Parts.field_fingerprint.succeeds (h.fingerprint.read_of_mem hdistinct hm)
      · exact Parts.field_containers.succeeds (h.containers.read_of_mem hdistinct hm)
    obtain ⟨q, hfold⟩ := Parts.foldlM_eq_ok hput {}
    have hrecord : Decode.record memberNames Parts.put {}
        (.object (es.map fun m => (some m.1, m.2))) = .ok q :=
      Decode.members_eq_ok_iff.2
        ⟨es, rfl, hknown, fun _ _ => List.not_mem_nil, hdistinct, hfold⟩
    rw [ofJson, hrecord]
    simp only [bind, Except.bind, hkind.required Parts.field_kind hknown hdistinct hfold,
      hversion.required Parts.field_version hknown hdistinct hfold,
      h.sourceSet.required Parts.field_sourceSet hknown hdistinct hfold,
      h.platform.required Parts.field_platform hknown hdistinct hfold,
      h.fingerprint.required Parts.field_fingerprint hknown hdistinct hfold,
      h.containers.required Parts.field_containers hknown hdistinct hfold]
    rfl

/-! ### Texts -/

/-- Whether an artifact has the fingerprint of its containers and these are sound. -/
theorem validate_eq_ok_iff : a.validate = .ok () ↔
    a.fingerprint = fingerprintOf a.containers ∧ ∀ c ∈ Container.walkAll a.containers, c.Sound := by
  have hsound : Container.validate a.containers = .ok () ↔
      ∀ c ∈ Container.walkAll a.containers, c.Sound :=
    Container.validate_eq_ok_iff.trans (forall₂_congr fun c _ => Container.ownFault_eq_none_iff)
  rw [← hsound, eq_comm (a := a.fingerprint), validate]
  split
  · rename_i hseal
    rw [and_iff_right hseal]
    cases Container.validate a.containers with
    | ok => exact iff_of_true rfl rfl
    | error e => exact iff_of_false (fun h => by cases h) fun h => by cases h
  · rename_i hseal
    exact iff_of_false (fun h => by cases h) fun h => hseal h.1

/-- **Texts are identified before anything else.** A text that spells an object with one kind and
one version, and with any other members, is refused for its kind if that is a foreign one, and else
for its version if that is another one. Otherwise it is accepted exactly as the artifact that its
members make up, if the recorded fingerprint is that of the containers and these are sound. -/
theorem ofText?_of_tells (h : Tells s ms kind v) :
    (kind ≠ kindName → ofText? s = .error (.wrongKind kind)) ∧
    (kind = kindName → v ≠ schemaVersion → ofText? s = .error (.unsupportedVersion v)) ∧
    (kind = kindName → v = schemaVersion → ∀ a, ofText? s = .ok a ↔
      Records ms a ∧ a.fingerprint = fingerprintOf a.containers ∧
        ∀ c ∈ Container.walkAll a.containers, c.Sound) := by
  have hread := Json.read_of_spells h.spells
  have henvelope := envelope_of_tells h
  rw [ofText?, hread]
  simp only [Decode.required, mapError_ok, bind, Except.bind, henvelope]
  refine ⟨fun hkind => ?_, fun hkind hversion => ?_, fun hkind hversion a => ?_⟩
  · rw [if_pos hkind]
    rfl
  · rw [if_neg (not_not.2 hkind), if_pos hversion]
    rfl
  · rw [if_neg (not_not.2 hkind), if_neg (not_not.2 hversion), ← validate_eq_ok_iff,
      ← ofJson_eq_ok_iff]
    cases hjson : ofJson (.object ms) with
    | error e => exact iff_of_false (fun h => by cases h) fun h => by cases h.1
    | ok b =>
      rw [mapError_ok, Except.ok.injEq]
      simp only [pure, Except.pure]
      cases hvalid : b.validate with
      | error e =>
        refine iff_of_false (fun h => by cases h) ?_
        rintro ⟨rfl, h⟩
        rw [hvalid] at h
        cases h
      | ok =>
        rw [Except.ok.injEq]
        exact ⟨fun h => ⟨h, h ▸ hvalid⟩, fun h => h.1⟩

end Artifact

/-! ### A text of a later schema -/

namespace Petals

/-- A member twice, with a tree and without one, and a name spelled with an escape. -/
def text : List Char :=
  '\x7b' :: ("\"schema_version\" : 7".toList ++
    ',' :: ("\"petals\":[[ ],-1.5e3]".toList ++
      ',' :: ("\"k\\u0069nd\":\"polyres.resource-metadata\"".toList ++
        ',' :: "\"petals\":null".toList)) ++ ['\x7d'])

/-- What the text spells. -/
def members : List (Option String × Json) :=
  [(some "schema_version", .natural 7),
    (some "petals", .array [.array [], .number ['-', '1', '.', '5', 'e', '3']]),
    (some "kind", .text "polyres.resource-metadata"), (some "petals", .null)]

theorem spells : Json.SpellsElement text (.object members) := by
  have hplain {s : String}
      (h : s.toList.all (fun c => c ≠ '"' ∧ c ≠ '\\' ∧ 32 ≤ c.toNat) = true) :
      Json.SpellsText s.toList s.toList :=
    Json.spellsText_itself fun c hc => of_decide_eq_true (List.all_eq_true.1 h c hc)
  have hspace : Json.Blank [' '] := by simp [Json.Blank, Json.isSpace]
  have hbare {cs : List Char} {j : Json} (h : Json.Spells cs j) : Json.SpellsElement cs j := by
    rw [← List.append_nil cs]
    exact .around Json.blank_nil h Json.blank_nil
  have hversion : Json.SpellsMember "\"schema_version\" : 7".toList
      (some "schema_version", .natural 7) :=
    .named Json.blank_nil (hplain (s := "schema_version") (by decide)) hspace
      (.around hspace (.number (Json.isNumber_toDigits 7)) Json.blank_nil)
  have hdigit {d : Char} (h : d.isDigit = true) : Json.IsDigits [d] :=
    ⟨List.cons_ne_nil d [], fun c hc => List.mem_singleton.1 hc ▸ h⟩
  have hunsigned : Json.IsUnsigned ['1'] ['.', '5'] ['e', '3'] :=
    ⟨hdigit rfl, by decide, .point (hdigit rfl), .plain (.inl rfl) (hdigit rfl)⟩
  have hnumber := hbare (.number (.negative hunsigned))
  have htree : Json.SpellsMember "\"petals\":[[ ],-1.5e3]".toList
      (some "petals", .array [.array [], .number ['-', '1', '.', '5', 'e', '3']]) :=
    .named Json.blank_nil (hplain (s := "petals") (by decide)) Json.blank_nil
      (hbare (.array (.next (hbare (.noItems hspace)) (.last hnumber))))
  have hkind : Json.SpellsMember "\"k\\u0069nd\":\"polyres.resource-metadata\"".toList
      (some "kind", .text "polyres.resource-metadata") :=
    .named Json.blank_nil
      (.cons (.itself (by decide) (by decide) (by decide)) (.cons (.unit (c := 'i') rfl)
        (hplain (s := "nd") (by decide))))
      Json.blank_nil (hbare (.string (hplain (s := "polyres.resource-metadata") (by decide))))
  have hnull : Json.SpellsMember "\"petals\":null".toList (some "petals", .null) :=
    .named Json.blank_nil (hplain (s := "petals") (by decide)) Json.blank_nil (hbare .nullWord)
  exact hbare (.object (.next hversion (.next htree (.next hkind (.last hnull)))))

theorem tells : Artifact.Tells (String.ofList text) members "polyres.resource-metadata" 7 where
  spells := by
    rw [String.toList_ofList]
    exact spells
  ofKind := rfl
  ofVersion := rfl
  fits := by decide

end Petals

/-- The text is told to be of another version, although nothing else in it is as it has to be. -/
theorem Artifact.ofText?_of_tells_petals :
    Tells (String.ofList Petals.text) Petals.members kindName 7 ∧
      ofText? (String.ofList Petals.text) = .error (.unsupportedVersion 7) :=
  ⟨Petals.tells, (ofText?_of_tells Petals.tells).2.1 rfl (by decide)⟩

end ResourceCompiler
