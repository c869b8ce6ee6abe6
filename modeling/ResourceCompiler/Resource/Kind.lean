import ResourceCompiler.Text.Lowercase

/-!
# Kinds of resources and other closed sets of words

Each type lists the words of one small vocabulary. `text` writes a word, `ofText?` reads it.

## Main definitions

* `Kind`: strings, plurals, images, colors.
* `Kind.traverse`: a value for every kind.
* `Visibility`, `Role`: properties of a generated object.
* `Quantity`: the plural categories.
* `ImageFormat`: the encodings of image files.
-/

namespace ResourceCompiler

/-- The word among a list that has the given text. -/
def wordOfText? {α : Type} (text : α → String) (all : List α) (s : String) : Option α :=
  all.find? fun a => text a == s

/-! ### Resource kinds -/

/-- The four kinds of resources. -/
inductive Kind where
  | strings
  | plurals
  | images
  | colors
deriving DecidableEq

namespace Kind

/-- All kinds, in the order in which they are worked on. -/
def all : List Kind := [strings, plurals, images, colors]

/-- The written form. -/
def text : Kind → String
  | strings => "strings"
  | plurals => "plurals"
  | images => "images"
  | colors => "colors"

instance : ToString Kind := ⟨text⟩

/-- Reads a kind. -/
def ofText? (s : String) : Option Kind := wordOfText? text all s

theorem mem_all (k : Kind) : k ∈ all := by cases k <;> decide

theorem ofText?_text (k : Kind) : ofText? k.text = some k := by cases k <;> decide

theorem text_injective {k k' : Kind} (h : k.text = k'.text) : k = k' := by
  have hk := ofText?_text k
  rw [h, ofText?_text k'] at hk
  exact (Option.some.inj hk).symm

/-- A value for every kind, computed in their order up to the first failure. -/
def traverse {ε : Type} {F : Kind → Type} (f : (k : Kind) → Except ε (F k)) :
    Except ε ((k : Kind) → F k) := do
  let s ← f strings
  let p ← f plurals
  let i ← f images
  let c ← f colors
  return fun
    | strings => s
    | plurals => p
    | images => i
    | colors => c

theorem traverse_eq_ok_iff {ε : Type} {F : Kind → Type} {f : (k : Kind) → Except ε (F k)}
    {g : (k : Kind) → F k} : traverse f = .ok g ↔ ∀ k, f k = .ok (g k) := by
  constructor
  · intro h
    unfold traverse at h
    cases hs : f strings with
    | error e => simp [hs, bind, Except.bind] at h
    | ok s =>
    cases hp : f plurals with
    | error e => simp [hs, hp, bind, Except.bind] at h
    | ok p =>
    cases hi : f images with
    | error e => simp [hs, hp, hi, bind, Except.bind] at h
    | ok i =>
    cases hc : f colors with
    | error e => simp [hs, hp, hi, hc, bind, Except.bind] at h
    | ok c =>
      simp only [hs, hp, hi, hc, bind, Except.bind, pure, Except.pure, Except.ok.injEq] at h
      intro k
      subst h
      cases k <;> assumption
  · intro h
    unfold traverse
    simp only [h, bind, Except.bind, pure, Except.pure, Except.ok.injEq]
    funext k
    cases k <;> rfl

end Kind

/-! ### Objects -/

/-- Who can use the accessors of a generated object. -/
inductive Visibility where
  /-- Everyone. -/
  | exported
  /-- The module that holds the object. -/
  | internal
deriving DecidableEq

namespace Visibility

/-- All visibilities. -/
def all : List Visibility := [exported, internal]

/-- The written form. -/
def text : Visibility → String
  | exported => "public"
  | internal => "internal"

/-- Reads the written form. -/
def ofText? (s : String) : Option Visibility := wordOfText? text all s

/-- Reads a setting, in which the case of letters does not count. -/
def ofSetting? (s : String) : Option Visibility := ofText? (Text.lowercase s)

theorem ofText?_text (v : Visibility) : ofText? v.text = some v := by cases v <;> decide

end Visibility

/-- How an object relates to the object of the same name in linked metadata. -/
inductive Role where
  /-- Declared by a common pass, to be provided by the passes of the platforms. -/
  | expect
  /-- Provides an object that linked metadata declares. -/
  | actual
  /-- Stands alone. -/
  | plain
deriving DecidableEq

namespace Role

/-- All roles. -/
def all : List Role := [expect, actual, plain]

/-- The written form. -/
def text : Role → String
  | expect => "expect"
  | actual => "actual"
  | plain => "plain"

/-- Reads the written form. -/
def ofText? (s : String) : Option Role := wordOfText? text all s

theorem ofText?_text (r : Role) : ofText? r.text = some r := by cases r <;> decide

end Role

/-! ### Plural categories -/

/-- The categories of plural forms. -/
inductive Quantity where
  | zero
  | one
  | two
  | few
  | many
  | other
deriving DecidableEq

namespace Quantity

/-- All categories. -/
def all : List Quantity := [zero, one, two, few, many, other]

/-- The written form. -/
def text : Quantity → String
  | zero => "zero"
  | one => "one"
  | two => "two"
  | few => "few"
  | many => "many"
  | other => "other"

instance : ToString Quantity := ⟨text⟩

/-- Reads a category. -/
def ofText? (s : String) : Option Quantity := wordOfText? text all s

theorem ofText?_text (q : Quantity) : ofText? q.text = some q := by cases q <;> decide

end Quantity

/-! ### Image files -/

/-- The encodings of image files. -/
inductive ImageFormat where
  | png
  | jpg
  | svg
deriving DecidableEq

namespace ImageFormat

/-- All formats. -/
def all : List ImageFormat := [png, jpg, svg]

/-- The extension of files in the format, which is also its written form. -/
def text : ImageFormat → String
  | png => "png"
  | jpg => "jpg"
  | svg => "svg"

/-- Reads the written form. -/
def ofText? (s : String) : Option ImageFormat := wordOfText? text all s

/-- The format of files with the extension, in which the case of ASCII letters does not count. -/
def ofExtension? (s : String) : Option ImageFormat :=
  let low := s.toList.map Char.toLower
  if low = "jpeg".toList then some jpg else ofText? (String.ofList low)

theorem ofText?_text (f : ImageFormat) : ofText? f.text = some f := by cases f <;> decide

theorem ofExtension?_text (f : ImageFormat) : ofExtension? f.text = some f := by
  cases f <;> decide

end ImageFormat

end ResourceCompiler
