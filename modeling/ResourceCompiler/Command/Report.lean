/-!
# Reports

What a command tells is a list of messages. How important a message is decides whether it is shown
and where: results go to the standard output, all else to the standard error.

## Main definitions

* `Verbosity`, `Level`: how much is shown, and how important a message is.
* `Report`: what a command tells and whether it succeeded.
* `Report.output`, `Report.errors`: the texts that are shown.
* `Report.listing`, `Report.chain`: lists of items in a message.
-/

namespace ResourceCompiler

/-- How much is shown. -/
inductive Verbosity where
  | quiet
  | normal
  | debug
deriving DecidableEq

/-- The verbosity that is asked for. Quiet comes before debug. -/
def Verbosity.ofFlags (quiet debug : Bool) : Verbosity :=
  if quiet then .quiet else if debug then .debug else .normal

/-- How important a message is. -/
inductive Level where
  /-- Output for other programs, which is always shown. -/
  | data
  | result
  | debug
  | warning
  | error
deriving DecidableEq

namespace Level

/-- Whether messages of the level are shown. -/
def isShown : Level → Verbosity → Bool
  | data, _ => true
  | result, v => v ≠ .quiet
  | debug, v => v = .debug
  | warning, v => v ≠ .quiet
  | error, _ => true

/-- Whether messages of the level are output. -/
def isOutput : Level → Bool
  | data => true
  | result => true
  | debug => false
  | warning => false
  | error => false

/-- What messages of the level start with. -/
def opening : Level → String
  | data => ""
  | result => ""
  | debug => "[debug] "
  | warning => "warning: "
  | error => "error: "

end Level

/-- A message. -/
structure Message where
  level : Level
  text : String
deriving DecidableEq

/-- What a command tells, and whether it succeeded. -/
structure Report where
  messages : List Message
  succeeded : Bool
deriving DecidableEq

namespace Report

/-- The report of a command that succeeded. -/
def success (messages : List Message) : Report := ⟨messages, true⟩

/-- The report of a command that failed, after what it told before. -/
def failure (before : List Message) (reason : String) : Report :=
  ⟨before ++ [⟨.error, reason⟩], false⟩

/-- The code that the program ends with. -/
def exitCode (r : Report) : Nat := if r.succeeded then 0 else 1

/-- The messages shown in one place, a line each. -/
def shown (v : Verbosity) (output : Bool) (r : Report) : String :=
  String.join ((r.messages.filter fun m => m.level.isShown v && m.level.isOutput == output).map
    fun m => m.level.opening ++ m.text ++ "\n")

/-- What goes to the standard output. -/
def output (v : Verbosity) (r : Report) : String := r.shown v true

/-- What goes to the standard error. -/
def errors (v : Verbosity) (r : Report) : String := r.shown v false

/-- A list of items, a line each behind the same text. -/
def listing (opening : String) (items : List String) : String :=
  "\n".intercalate (items.map (opening ++ ·))

/-- A chain of items. -/
def chain (items : List String) : String := " -> ".intercalate items

end Report

end ResourceCompiler
