import ResourceCompiler.OrderedMap
import ResourceCompiler.Source.Error

/-!
# Declarations

A resource file declares values for keys, each under a qualifier such as a locale or a scale. The
files of a source set together must not declare a pair of key and qualifier twice.

## Main definitions

* `Source.Declaration`: a value for a key and a qualifier, with the file it stands in.
* `Source.gather`: the values by key and qualifier, in the order of their first declaration.
-/

namespace ResourceCompiler.Source

/-- A value for a key and a qualifier, with the file that declares it. -/
structure Declaration (Q V : Type) where
  key : Key
  qualifier : Q
  value : V
  path : Path

/-- The values declared so far. -/
abbrev Declared (Q V : Type) := OrderedMap Key (OrderedMap Q (V × Path))

variable {Q V : Type} [DecidableEq Q]

/-- Where a key and a qualifier have been declared. -/
def Declared.declaredIn? (m : Declared Q V) (key : Key) (qualifier : Q) : Option Path :=
  ((m.get? key).bind fun values => values.get? qualifier).map Prod.snd

/-- One more declaration, of a pair that has none yet. -/
def Declared.add (m : Declared Q V) (d : Declaration Q V) : Declared Q V :=
  m.insert d.key (((m.get? d.key).getD .empty).insert d.qualifier (d.value, d.path))

/-- The values of declarations in order, up to the first fault or second declaration. The given
function says what a second declaration is. -/
def gatherFrom (twice : Declaration Q V → Path → SourceError) (m : Declared Q V) :
    List (Except SourceError (Declaration Q V)) → Except SourceError (Declared Q V)
  | [] => .ok m
  | .error e :: _ => .error e
  | .ok d :: rest =>
    match m.declaredIn? d.key d.qualifier with
    | some first => .error (twice d first)
    | none => gatherFrom twice (m.add d) rest

/-- The values of declarations by key and qualifier. -/
def gather (sourceSet : SourceSetName) (kind : Kind) (qualifierText : Q → String)
    (ds : List (Except SourceError (Declaration Q V))) : Except SourceError (Declared Q V) :=
  gatherFrom (fun d first =>
    .duplicate sourceSet kind d.key (qualifierText d.qualifier) first d.path) .empty ds

/-- The values of a map without the files that declare them. -/
def withoutPaths (m : OrderedMap Q (V × Path)) : OrderedMap Q V where
  entries := m.entries.map fun e => (e.1, e.2.1)
  distinct := by simpa [List.map_map, Function.comp_def] using m.distinct

end ResourceCompiler.Source
