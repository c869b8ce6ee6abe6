import ResourceCompiler.Config.Configuration
import ResourceCompiler.Config.Decoding

/-!
# Loading configurations

The lowest layer of settings comes from a file: the one asked for, the one that the environment
names, or the one of the conventional name.

## Main definitions

* `Settings.locate`: the file.
* `Settings.ofFile`: the settings of a file, with paths read from its directory.
* `Configuration.load`: the configuration of the file with further settings over it.
-/

namespace ResourceCompiler

/-- The conventional name of a file of settings. -/
def Settings.fileName : Path := ⟨"polyres.toml"⟩

/-- The file of settings: the one asked for, or else the one of the environment or the conventional
one, whichever exists first. -/
def Settings.locate (explicit environment : Option Path) (t : FileTree) : Option Path :=
  explicit.or ((environment.toList ++ [Settings.fileName]).find? fun p => (t.stat p).isOk)

/-- The settings of a text that stands in a file, with paths as they are written. -/
def Settings.parse (path : Path) (text : String) : Except ConfigError Settings :=
  match Settings.ofText? text with
  | some s => .ok s
  | none => .error (.unparsable path)

/-- The settings of a file, with paths read from its directory. -/
def Settings.ofFile (path : Path) (t : FileTree) : Except ConfigError Settings := do
  let text ← (t.readText path).mapError (ConfigError.unreadable path)
  let s ← Settings.parse path text
  return s.rebase (path.parent?.getD ⟨""⟩)

/-- The configuration of the file of settings with further settings over it. -/
def Configuration.load (explicit environment : Option Path) (overrides : Settings)
    (t : FileTree) : Except ConfigError Configuration := do
  let located := Settings.locate explicit environment t
  let file ← match located with
    | some path => Settings.ofFile path t
    | none => pure {}
  let c ← (file.overlay overrides).resolve
  return { c with loadedFrom := located }

end ResourceCompiler
