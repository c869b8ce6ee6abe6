import ResourceCompiler.OrderedMap
import ResourceCompiler.Path
import ResourceCompiler.Resource.Color
import ResourceCompiler.Resource.Kind
import ResourceCompiler.Resource.Locale
import ResourceCompiler.Resource.Name
import ResourceCompiler.Resource.Scale

/-!
# Resource entries

An entry is a key with a value, and what a value is depends on the kind of the entry: texts by
locale, plural forms by locale, image files by scale, or a color.

## Main definitions

* `PluralForms`, `ImageFile`, `ColorValue`: the parts of values.
* `Kind.Value`: the values of the entries of a kind.
* `Entry k`: an entry of the kind `k`.
* `Resource`: an entry of any kind.
* `Resources`: the entries of every kind.
-/

namespace ResourceCompiler

/-- The texts of one locale by plural category. -/
abbrev PluralForms := OrderedMap Quantity String

/-- An image file and its encoding. -/
structure ImageFile where
  path : Path
  format : ImageFormat
deriving DecidableEq

/-- A color that is the same in all appearances, or differs between light and dark. -/
inductive ColorValue where
  | single (color : Color)
  | themed (light dark : Color)
deriving DecidableEq

namespace ColorValue

/-- The color of the light appearance. -/
def light : ColorValue → Color
  | single color => color
  | themed light _ => light

/-- The color of the dark appearance, if it differs. -/
def dark? : ColorValue → Option Color
  | single _ => none
  | themed _ dark => some dark

end ColorValue

/-- The values of the entries of a kind. -/
abbrev Kind.Value : Kind → Type
  | .strings => OrderedMap Locale String
  | .plurals => OrderedMap Locale PluralForms
  | .images => OrderedMap Scale ImageFile
  | .colors => ColorValue

instance : (k : Kind) → DecidableEq k.Value
  | .strings => inferInstanceAs (DecidableEq (OrderedMap Locale String))
  | .plurals => inferInstanceAs (DecidableEq (OrderedMap Locale PluralForms))
  | .images => inferInstanceAs (DecidableEq (OrderedMap Scale ImageFile))
  | .colors => inferInstanceAs (DecidableEq ColorValue)

/-- An entry of a kind: a key and its value. -/
structure Entry (k : Kind) where
  key : Key
  value : k.Value
deriving DecidableEq

/-- An entry of any kind. -/
structure Resource where
  kind : Kind
  entry : Entry kind
deriving DecidableEq

namespace Resource

/-- The key of the entry. -/
def key (r : Resource) : Key := r.entry.key

/-- The entry, if it is of the kind. -/
def ofKind? (k : Kind) (r : Resource) : Option (Entry k) :=
  if h : r.kind = k then some (h ▸ r.entry) else none

@[simp] theorem ofKind?_mk (k : Kind) (e : Entry k) : ofKind? k ⟨k, e⟩ = some e := by
  simp [ofKind?]

theorem ofKind?_eq_some_iff {k : Kind} {r : Resource} {e : Entry k} :
    r.ofKind? k = some e ↔ r = ⟨k, e⟩ := by
  obtain ⟨k', e'⟩ := r
  unfold ofKind?
  constructor
  · intro h
    split at h
    · rename_i hk
      cases hk
      cases h
      rfl
    · cases h
  · intro h
    cases h
    simp

end Resource

/-- The entries of every kind. -/
abbrev Resources := (k : Kind) → List (Entry k)

end ResourceCompiler
