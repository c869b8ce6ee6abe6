import ResourceCompiler.Config.Settings
import ResourceCompiler.Text.Fields

/-!
# Command-line arguments

An invocation names a command and gives it options and operands. Options start with two dashes and
may carry their value behind `=` or in the next argument; a cluster of letters stands behind a
single dash. After `--` every argument is an operand. Arguments are read from the left, and the
first that cannot be accepted, or that asks for help, ends the reading.

## Main definitions

* `Argument`: what an argument looks like.
* `Flag`, `Scheme`: the options of a command, and what is done with its operands.
* `Scheme.read`: reads arguments by a scheme.
* `Command`, `Invocation`: the commands and what they are given.
* `Invocation.ofArguments`: reads all arguments.
-/

namespace ResourceCompiler

/-- Why arguments name no command to be run. -/
inductive Refusal where
  /-- They cannot be accepted. -/
  | misuse
  | help
  | version
deriving DecidableEq

/-- The code that the program ends with. -/
def Refusal.exitCode : Refusal → Nat
  | misuse => 2
  | help => 0
  | version => 0

/-! ### Arguments -/

/-- What an argument looks like. -/
inductive Argument where
  /-- The argument behind which there are operands only. -/
  | terminator
  | option (name : List Char) (attached : Option (List Char))
  | letters (letters : List Char)
  | operand
deriving DecidableEq

/-- What a text looks like as an argument. A single dash is an operand. -/
def Argument.ofText (s : String) : Argument :=
  match s.toList with
  | ['-', '-'] => .terminator
  | '-' :: '-' :: rest =>
    match rest.span (· ≠ '=') with
    | (name, _ :: value) => .option name (some value)
    | (name, []) => .option name none
  | '-' :: c :: rest => .letters (c :: rest)
  | _ => .operand

/-- What reading gives. -/
abbrev Reading (α : Type) := Except Refusal α

/-- What an option does to what has been read. -/
inductive Effect (σ : Type) where
  /-- It has no value, and may have a letter. -/
  | switch (letter : Option Char) (apply : σ → Reading σ)
  /-- It has a value. -/
  | setting (apply : String → σ → Reading σ)

/-- An option. -/
structure Flag (σ : Type) where
  name : String
  effect : Effect σ

namespace Flag

variable {σ α : Type}

/-- An option without value that may be given once. -/
def switch (name : String) (letter : Option Char) (isSet : σ → Bool) (apply : σ → σ) : Flag σ :=
  ⟨name, .switch letter fun s => if isSet s then .error .misuse else .ok (apply s)⟩

/-- An option that ends the reading. -/
def stop (name : String) (letter : Char) (refusal : Refusal) : Flag σ :=
  ⟨name, .switch (some letter) fun _ => .error refusal⟩

/-- An option with a value that may be given once. -/
def setting (name : String) (parse : String → Option α) (current : σ → Option α)
    (apply : α → σ → σ) : Flag σ :=
  ⟨name, .setting fun value s =>
    match current s, parse value with
    | none, some a => .ok (apply a s)
    | _, _ => .error .misuse⟩

/-- An option with a value that may be given again and again. -/
def repeated (name : String) (parse : String → Option α) (apply : α → σ → σ) : Flag σ :=
  ⟨name, .setting fun value s =>
    match parse value with
    | some a => .ok (apply a s)
    | none => .error .misuse⟩

end Flag

/-- The options of a command, and what is done with its operands. -/
structure Scheme (σ : Type) where
  flags : List (Flag σ)
  operand : String → σ → Reading σ

namespace Scheme

variable {σ : Type}

/-- The option of a name. -/
def effect? (scheme : Scheme σ) (name : List Char) : Option (Effect σ) :=
  (scheme.flags.find? fun f => f.name.toList == name).map Flag.effect

/-- What the option of a letter does. -/
def letter? (scheme : Scheme σ) (c : Char) : Option (σ → Reading σ) :=
  scheme.flags.findSome? fun f =>
    match f.effect with
    | .switch letter apply => if letter = some c then some apply else none
    | .setting _ => none

/-- Reads a cluster of letters. -/
def readLetters (scheme : Scheme σ) (cs : List Char) (s : σ) : Reading σ :=
  cs.foldlM (fun s c =>
    match scheme.letter? c with
    | some apply => apply s
    | none => .error .misuse) s

/-- Reads operands. -/
def readOperands (scheme : Scheme σ) (args : List String) (s : σ) : Reading σ :=
  args.foldlM (fun s a => scheme.operand a s) s

/-- Reads arguments. -/
def read (scheme : Scheme σ) : List String → σ → Reading σ
  | [], s => .ok s
  | a :: rest, s =>
    match Argument.ofText a with
    | .terminator => scheme.readOperands rest s
    | .letters cs => do scheme.read rest (← scheme.readLetters cs s)
    | .operand => do scheme.read rest (← scheme.operand a s)
    | .option name attached =>
      match scheme.effect? name, attached with
      | some (.switch _ apply), none => do scheme.read rest (← apply s)
      | some (.setting apply), some value => do
        scheme.read rest (← apply (String.ofList value) s)
      | some (.setting apply), none =>
        match rest with
        | [] => .error .misuse
        | value :: rest =>
          if Argument.ofText value = .operand then do scheme.read rest (← apply value s)
          else .error .misuse
      | _, _ => .error .misuse

end Scheme

/-! ### Commands -/

/-- The shells that completion can be generated for. -/
inductive Shell where
  | bash
  | zsh
  | fish
  | powerShell
deriving DecidableEq

/-- Reads the name of a shell. -/
def Shell.ofText? : String → Option Shell
  | "bash" => some .bash
  | "zsh" => some .zsh
  | "fish" => some .fish
  | "power-shell" => some .powerShell
  | _ => none

/-- What the program is asked to do. -/
inductive Command where
  /-- Run a pass. -/
  | generate (settingsFile : Option Path) (overrides : Settings)
  /-- Show artifacts. -/
  | inspect (artifacts : List Path) (json : Bool)
  /-- Write a completion script. -/
  | completion (shell : Shell)
deriving DecidableEq

/-- The options that every command has. -/
structure CommonOptions where
  debug : Bool := false
  quiet : Bool := false
deriving DecidableEq

/-- A command with the options that every command has. -/
structure Invocation where
  common : CommonOptions
  command : Command
deriving DecidableEq

namespace Invocation

/-- The path that a value names. -/
def path? (value : String) : Option Path := if value = "" then none else some ⟨value⟩

/-- The source set that a value of the form `NAME=DIR` stands for. -/
def upper? (value : String) : Option UpperSettings :=
  match value.toList.span (· ≠ '=') with
  | (c :: name, _ :: d :: directory) =>
    some ⟨String.ofList (c :: name), ⟨String.ofList (d :: directory)⟩⟩
  | _ => none

/-- The options that every command has. -/
def commonFlags {σ : Type} : List (Flag (CommonOptions × σ)) := [
  .switch "debug" none (·.1.debug) fun s => ({ s.1 with debug := true }, s.2),
  .switch "quiet" (some 'q') (·.1.quiet) fun s => ({ s.1 with quiet := true }, s.2),
  .stop "help" 'h' .help]

/-- An option of a command itself. -/
def own {σ : Type} (f : Flag σ) : Flag (CommonOptions × σ) :=
  ⟨f.name, match f.effect with
    | .switch letter apply => .switch letter fun s => return (s.1, ← apply s.2)
    | .setting apply => .setting fun value s => return (s.1, ← apply value s.2)⟩

/-- The scheme of a command with the given options and operands. -/
def scheme {σ : Type} (flags : List (Flag σ)) (operand : String → σ → Reading σ) :
    Scheme (CommonOptions × σ) :=
  ⟨flags.map own ++ commonFlags, fun a s => return (s.1, ← operand a s.2)⟩

/-- What the program is given before the name of a command. -/
def programScheme : Scheme (CommonOptions × Unit) :=
  scheme [.stop "version" 'V' .version] fun _ _ => .error .misuse

/-- The options of a pass, each of which overrides the setting of the file. -/
def generateScheme : Scheme (CommonOptions × Option Path × Settings) :=
  let text (name : String) (get : Settings → Option String)
      (put : Option String → Settings → Settings) : Flag (Option Path × Settings) :=
    .setting name some (fun s => get s.2) fun value s => (s.1, put (some value) s.2)
  scheme [
    .setting "config" path? (·.1) fun p s => (some p, s.2),
    text "source-set" (·.sourceSet) fun v s => { s with sourceSet := v },
    .setting "resources" path? (·.2.ownResources) fun p s =>
      (s.1, { s.2 with ownResources := some p }),
    .repeated "upper" upper? fun u s =>
      (s.1, { s.2 with upperSourceSets := some (s.2.upperSourceSets.getD [] ++ [u]) }),
    text "platform" (·.platform) fun v s => { s with platform := v },
    text "apple-target" (·.appleTarget) fun v s => { s with appleTarget := v },
    text "package" (·.packageName) fun v s => { s with packageName := v },
    text "class-name" (·.className) fun v s => { s with className := v },
    text "visibility" (·.visibility) fun v s => { s with visibility := v },
    .switch "strict-line-breaks" none (·.2.strictLineBreaks.isSome) fun s =>
      (s.1, { s.2 with strictLineBreaks := some true }),
    text "android-r-class" (·.androidPackage) fun v s => { s with androidPackage := v },
    text "base-region" (·.baseRegion) fun v s => { s with baseRegion := v },
    .repeated "input-metadata" path? fun p s =>
      (s.1, { s.2 with inputMetadata := some (s.2.inputMetadata.getD [] ++ [p]) }),
    .setting "output" path? (fun s => s.2.output.bind (·.root)) fun p s =>
      (s.1, { s.2 with output := some { root := some p } })]
    fun _ _ => .error .misuse

/-- The artifacts to be shown. -/
def inspectScheme : Scheme (CommonOptions × List Path × Bool) :=
  scheme [.switch "json" none (·.2) fun s => (s.1, true)] fun a s =>
    match path? a with
    | some p => .ok (s.1 ++ [p], s.2)
    | none => .error .misuse

/-- The shell to complete for. -/
def completionScheme : Scheme (CommonOptions × Option Shell) :=
  scheme [] fun a s =>
    match s, Shell.ofText? a with
    | none, some shell => .ok (some shell)
    | _, _ => .error .misuse

/-- Reads what follows the name of a command. -/
def readCommand (name : String) (args : List String) : Reading (CommonOptions × Command) := do
  match name with
  | "generate" =>
    let (common, settingsFile, overrides) ← generateScheme.read args ({}, none, {})
    return (common, .generate settingsFile overrides)
  | "inspect" =>
    let (common, artifacts, json) ← inspectScheme.read args ({}, [], false)
    if artifacts.isEmpty then throw .misuse
    return (common, .inspect artifacts json)
  | "completion" =>
    match ← completionScheme.read args ({}, none) with
    | (common, some shell) => return (common, .completion shell)
    | (_, none) => throw .misuse
  | "help" =>
    match args with
    | [] => throw .help
    | [topic] =>
      if topic ∈ ["generate", "inspect", "completion", "help"] then throw .help else throw .misuse
    | _ => throw .misuse
  | _ => throw .misuse

/-- Whether an argument is an option of the program or a cluster of such. -/
def isOption (arg : String) : Bool :=
  match Argument.ofText arg with
  | .option _ _ => true
  | .letters _ => true
  | .terminator => false
  | .operand => false

/-- Reads all arguments. The options that every command has count wherever they stand. -/
def ofArguments (args : List String) : Reading Invocation := do
  let (before, _) ← programScheme.read (args.takeWhile isOption) ({}, ())
  match args.dropWhile isOption with
  | [] => throw .misuse
  | name :: rest =>
    let (own, command) ← readCommand name rest
    return ⟨⟨before.debug || own.debug, before.quiet || own.quiet⟩, command⟩

end Invocation

end ResourceCompiler
