import ResourceCompiler.Resource.Kind

/-!
# Patterns of resource files

The paths of the files of a kind, below the root of a source set, are given by patterns. A star in a
pattern stands for any part of a name, and two stars for any number of directories.

## Main definitions

* `Source.patterns`: the patterns of a kind.
* `Source.Token`, `Source.tokens`: the parts of a pattern.
* `Source.Token.Spells`: the texts that a part stands for.
* `Source.Fits`: whether a path is one of the files of a kind.
-/

namespace ResourceCompiler.Source

/-- The patterns of the files of a kind, relative to the root of a source set. -/
def patterns : Kind → List String
  | .strings => ["**/strings*.xml"]
  | .plurals => ["**/plurals*.xml"]
  | .images => ["images/**/*.png", "images/**/*.jpg", "images/**/*.jpeg", "images/**/*.svg"]
  | .colors => ["**/colors*.xml"]

/-- A part of a pattern. -/
inductive Token where
  | literal (c : Char)
  /-- A star: any part of a name. -/
  | part
  /-- Two stars and a slash at the start: any directories, and none as well. -/
  | anywhere
  /-- Two stars between slashes: a slash, with any directories behind it. -/
  | below
deriving DecidableEq

/-- The parts of a pattern from a place behind its start. -/
def innerTokens : List Char → List Token
  | '/' :: '*' :: '*' :: '/' :: rest => .below :: innerTokens rest
  | '*' :: rest => .part :: innerTokens rest
  | c :: rest => .literal c :: innerTokens rest
  | [] => []

/-- The parts of a pattern. -/
def tokens : List Char → List Token
  | '*' :: '*' :: '/' :: rest => .anywhere :: innerTokens rest
  | cs => innerTokens cs

/-- Whether a part of a pattern stands for a text. -/
def Token.Spells : Token → List Char → Prop
  | literal c, run => run = [c]
  | part, run => '/' ∉ run
  | anywhere, run => run = [] ∨ ∃ directories, run = directories ++ ['/']
  | below, run => run = ['/'] ∨ ∃ directories, run = '/' :: directories ++ ['/']

/-- Whether a text is made of texts that the parts of a pattern stand for, one after the other. -/
def Matches : List Token → List Char → Prop
  | [], s => s = []
  | t :: ts, s => ∃ run rest, s = run ++ rest ∧ t.Spells run ∧ Matches ts rest

/-- Whether a path, below the root of a source set, is matched by one of the patterns of a kind. -/
def Fits (k : Kind) (path : List Char) : Prop :=
  ∃ p ∈ patterns k, Matches (tokens p.toList) path

end ResourceCompiler.Source
