import ResourceCompiler.Resource.Entry

/-!
# Merging

The entries that several source sets contribute are merged in order of precedence, the most specific
source set last. A key keeps the place of its first declaration. Values by locale or scale are laid
over each other, colors are replaced.

## Main definitions

* `Fragment k`: what one source set contributes to a kind.
* `Kind.overlay`: a later value laid over an earlier one.
* `mergeFragments`: the merged entries of a sequence of fragments.

## Main statements

* `mergeFragments_colors`: colors never lack a value.
-/

namespace ResourceCompiler

/-- The entries of a kind that one source set contributes. -/
structure Fragment (k : Kind) where
  sourceSet : SourceSetName
  entries : List (Entry k)

/-- A merged key that ends up without any value. -/
inductive MergeError where
  | missingDefault (kind : Kind) (key : Key) (sourceSet : SourceSetName)
deriving DecidableEq

/-- The wording of a fault. -/
def MergeError.message : MergeError → String
  | .missingDefault kind key sourceSet =>
    kind.text ++ " resource '" ++ key.text ++ "' (last declared in source set '" ++ sourceSet.text
      ++ "') has no value after merging"

namespace Kind

/-- A later value laid over an earlier one: locales and scales of both are kept and the later value
wins where both have one; a later color replaces an earlier one. -/
def overlay : (k : Kind) → k.Value → k.Value → k.Value
  | .strings, lower, upper => OrderedMap.overlay lower upper
  | .plurals, lower, upper => OrderedMap.overlay lower upper
  | .images, lower, upper => OrderedMap.overlay lower upper
  | .colors, _, upper => upper

/-- Whether a value holds nothing for any locale or scale. -/
def lacksValue : (k : Kind) → k.Value → Bool
  | .strings, v => OrderedMap.isEmpty v
  | .plurals, v => OrderedMap.isEmpty v
  | .images, v => OrderedMap.isEmpty v
  | .colors, _ => false

end Kind

/-- What is known of each key: its value so far and the source set that declared it last. -/
abbrev Merged (k : Kind) := OrderedMap Key (k.Value × SourceSetName)

/-- One more declaration. -/
def Merged.declare {k : Kind} (m : Merged k) (sourceSet : SourceSetName) (e : Entry k) : Merged k :=
  match m.get? e.key with
  | some (old, _) => m.insert e.key (k.overlay old e.value, sourceSet)
  | none => m.insert e.key (e.value, sourceSet)

/-- The declarations of one more fragment. -/
def Merged.add {k : Kind} (m : Merged k) (f : Fragment k) : Merged k :=
  f.entries.foldl (fun m e => m.declare f.sourceSet e) m

/-- The declarations of a sequence of fragments. -/
def Merged.ofFragments {k : Kind} (fs : List (Fragment k)) : Merged k := fs.foldl Merged.add .empty

/-- The merged entries, unless a key has no value; then the first such key. -/
def Merged.result {k : Kind} (m : Merged k) : Except MergeError (List (Entry k)) :=
  match m.entries.find? fun e => k.lacksValue e.2.1 with
  | some (key, _, sourceSet) => .error (.missingDefault k key sourceSet)
  | none => .ok (m.entries.map fun e => ⟨e.1, e.2.1⟩)

/-- The merged entries of a sequence of fragments, the least specific first. -/
def mergeFragments {k : Kind} (fs : List (Fragment k)) : Except MergeError (List (Entry k)) :=
  (Merged.ofFragments fs).result

/-! ### Declarations -/

theorem Merged.keys_declare {k : Kind} (m : Merged k) (sourceSet : SourceSetName) (e : Entry k) :
    (m.declare sourceSet e).keys = if e.key ∈ m.keys then m.keys else m.keys ++ [e.key] := by
  unfold Merged.declare
  split <;> exact OrderedMap.keys_insert ..

/-- Colors never lack a value. -/
theorem mergeFragments_colors (fs : List (Fragment .colors)) :
    mergeFragments fs = .ok ((Merged.ofFragments fs).entries.map fun e => ⟨e.1, e.2.1⟩) := by
  have h : (Merged.ofFragments fs).entries.find?
      (fun e => Kind.colors.lacksValue e.2.1) = none := by
    simp [List.find?_eq_none, Kind.lacksValue]
  rw [mergeFragments, Merged.result, h]

end ResourceCompiler
