import ResourceCompiler.Resource.Entry
import ResourceCompiler.Source.Document

/-!
# Strings and plurals

## Main definitions

* `Source.stringOf`: the key and text of a string.
* `Source.formsOf`, `Source.pluralOf`: the forms of a plural, and its key with them. A form for the
  category `other` has to be there.
* `Source.textDeclarations`: the declarations of files of strings or plurals.
-/

namespace ResourceCompiler.Source

/-- The key and text of a string. -/
def stringOf (strict : Bool) (e : Xml.Element) : Except Fault (Key × String) := do
  expectElement "string" e
  let key ← keyOf e
  let text ← (normalize strict e.text).mapError (Fault.escape "string" key)
  return (key, text)

/-- The forms of a plural, added to those read before. -/
def formsFrom (strict : Bool) (key : Key) (forms : PluralForms) :
    List Xml.Element → Except Fault PluralForms
  | [] => .ok forms
  | item :: rest => do
    match (item.attribute? "quantity").bind Quantity.ofText? with
    | none => throw (.itemWithoutQuantity key)
    | some q =>
      let text ← (normalize strict item.text).mapError (Fault.escape "plural" key)
      if forms.contains q then throw (.quantityTwice key q)
      formsFrom strict key (forms.insert q text) rest

/-- The forms of a plural. -/
def formsOf (strict : Bool) (key : Key) (items : List Xml.Element) : Except Fault PluralForms := do
  let forms ← formsFrom strict key .empty items
  if forms.contains .other then return forms else throw (.missingOther key)

/-- The key and forms of a plural. -/
def pluralOf (strict : Bool) (e : Xml.Element) : Except Fault (Key × PluralForms) := do
  expectElement "plural" e
  let key ← keyOf e
  return (key, ← formsOf strict key e.elements)

/-- The declarations of files whose entries are read by the given function, each under the locale of
its file. -/
def textDeclarations {V : Type} (kind : Kind) (value : Xml.Element → Except Fault (Key × V))
    (sourceSet : SourceSetName) (root : Path) (files : List Path) (t : FileTree) :
    List (Except SourceError (Declaration Locale V)) :=
  files.flatMap fun path =>
    let p : Place := ⟨sourceSet, kind, path⟩
    match p.locale root with
    | .error e => [.error e]
    | .ok locale => p.declarations locale value (p.resources t)

end ResourceCompiler.Source
