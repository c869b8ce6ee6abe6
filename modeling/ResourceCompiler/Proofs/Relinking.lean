import ResourceCompiler.Proofs.Linking

/-!
# Linking what is merged again

A pass may link the artifact of an ancestor and list the source sets of that ancestor as well. Each
declaration of the ancestor is then laid over the value it has become part of already. While the
declarations are replayed, a qualifier that several of them give falls back to its earlier values,
and the last one brings back the value it had. Laying over is associative and idempotent, so the
whole replay comes to nothing.

* `OrderedMap.overlay_self`, `Kind.overlay_self`: laying a value over itself.
* `StandsFor.replay`: entries in front of the declarations that they stand for.
* `mergeFragments_replay`: merged entries in front of the fragments they come from.
-/

namespace ResourceCompiler

variable {k : Kind}

/-! ### Values laid over themselves -/

theorem eraseDups_append_self {κ : Type} [DecidableEq κ] (l : List κ) :
    (l ++ l).eraseDups = l.eraseDups := by
  have hnil : l.removeAll l = [] := by simp [List.removeAll]
  rw [List.eraseDups_append, hnil, List.eraseDups_nil, List.append_nil]

theorem OrderedMap.overlay_self {κ α : Type} [DecidableEq κ] (m : OrderedMap κ α) :
    m.overlay m = m := by
  apply ext_of_get?
  · rw [keys_overlay_eq_eraseDups, eraseDups_append_self, eraseDups_of_nodup m.nodup_keys]
  · intro q _
    rw [get?_overlay, Option.or_self]

theorem Kind.overlay_self (k : Kind) (v : k.Value) : k.overlay v v = v := by
  cases k with
  | strings => exact OrderedMap.overlay_self v
  | plurals => exact OrderedMap.overlay_self v
  | images => exact OrderedMap.overlay_self v
  | colors => rfl

theorem Kind.merge_overlay_self (k : Kind) (o : Option k.Value) : o.merge k.overlay o = o := by
  cases o with
  | none => rfl
  | some v => rw [Option.merge_some_some, k.overlay_self]

/-! ### The replay -/

/-- Entries come to nothing in front of the declarations that they stand for. -/
theorem StandsFor.replay {es fs : List (Entry k)} (h : StandsFor es fs) :
    StandsFor (es ++ fs) fs where
  keys_eq := by
    rw [List.map_append, ← eraseDups_eraseDups_append, h.keys_eq, eraseDups_eraseDups_append,
      eraseDups_append_self]
  layered_eq key := by
    rw [valuesOf_append, Kind.layered_append, h.layered_eq, Kind.merge_overlay_self]
  lacksValue_eq := h.lacksValue_eq

/-- **Merged entries come to nothing in front of what was merged.** Whatever follows, the merge
gives the same entries, or the same fault. So it is with the artifact of a pass that merged these
entries, when the pass that links it lists their source sets itself. -/
theorem mergeFragments_replay {fs : List (Fragment k)} {es : List (Entry k)}
    (h : mergeFragments fs = .ok es) (own : List (Fragment k)) :
    (∀ s : SourceSetName, mergeFragments ([⟨s, es⟩] ++ fs ++ own) = mergeFragments (fs ++ own)) ∧
      ∀ (c : Configuration) (linked : List Artifact) (merged : Resources), merged k = es →
        ∀ (s : SourceSetName) (platform : String),
          mergeLinked [.ofContainers s platform (c.assemble linked merged)] (fs ++ own) =
            mergeFragments (fs ++ own) := by
  have hreplay : ∀ s : SourceSetName,
      mergeFragments ([⟨s, es⟩] ++ fs ++ own) = mergeFragments (fs ++ own) := by
    intro s
    apply mergeFragments_append_congr
    rw [List.flatMap_append, List.flatMap_cons, List.flatMap_nil, List.append_nil]
    exact (standsFor_of_mergeFragments h).replay
  refine ⟨hreplay, ?_⟩
  intro c linked merged hmerged s platform
  rw [mergeLinked, List.map_cons, List.map_nil, Configuration.fragment_assemble, hmerged,
    ← List.append_assoc]
  exact hreplay s

/-! ### A text that is replaced and restored -/

namespace Salutation

def esperanto : Locale := .tag ⟨"eo", by decide⟩ none none

def entries (texts : List (Locale × String)) : List (Entry .strings) :=
  [⟨⟨"salutation", by decide⟩, OrderedMap.ofList texts⟩]

/-- Three source sets, the last of which takes back what the second says. -/
def ancestors : List (Fragment .strings) :=
  [⟨⟨"generalMain", by decide⟩, entries [(.base, "Hello"), (esperanto, "Saluton")]⟩,
    ⟨⟨"hotelMain", by decide⟩, entries [(.base, "Good day")]⟩,
    ⟨⟨"lobbyMain", by decide⟩, entries [(.base, "Hello")]⟩]

/-- What the source sets come to. -/
def merged : List (Entry .strings) := entries [(.base, "Hello"), (esperanto, "Saluton")]

def own : List (Fragment .strings) :=
  [⟨⟨"terraceMain", by decide⟩, entries [(esperanto, "Bonan tagon")]⟩]

end Salutation

theorem mergeFragments_replay_salutation :
    mergeFragments ([⟨⟨"libraryMain", by decide⟩, Salutation.merged⟩] ++ Salutation.ancestors ++
      Salutation.own) =
      .ok (Salutation.entries [(.base, "Hello"), (Salutation.esperanto, "Bonan tagon")]) := by
  have hmerged : mergeFragments Salutation.ancestors = .ok Salutation.merged := rfl
  rw [(mergeFragments_replay hmerged Salutation.own).1]
  rfl

end ResourceCompiler
