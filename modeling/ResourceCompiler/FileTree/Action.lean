import ResourceCompiler.FileTree.Access

/-!
# Actions on a file tree

An action changes a tree and gives a value or fails. What it changed before it failed stays changed.

## Main definitions

* `FileAction ε α`: actions with faults in `ε` and values in `α`.
* `FileAction.ask`, `FileAction.change`: a look at the tree and a single request.
* `FileAction.each`: an action for every element of a list.
* `createDirectories`, `removeAll`, `copyFile`: requests made of several single ones.
-/

namespace ResourceCompiler

/-- A change of a file tree that gives a value or fails. -/
def FileAction (ε α : Type) := FileTree → Except ε α × FileTree

namespace FileAction

variable {ε δ α β : Type}

/-- The value or fault of an action on a tree, and the tree after it. -/
def run (x : FileAction ε α) (t : FileTree) : Except ε α × FileTree := x t

/-- The value without a change. -/
protected def pure (a : α) : FileAction ε α := fun t => (.ok a, t)

/-- One action, and then another that depends on its value. -/
protected def bind (x : FileAction ε α) (f : α → FileAction ε β) : FileAction ε β := fun t =>
  match x t with
  | (.ok a, t) => f a t
  | (.error e, t) => (.error e, t)

instance : Monad (FileAction ε) where
  pure := FileAction.pure
  bind := FileAction.bind

instance : LawfulMonad (FileAction ε) := LawfulMonad.mk' _
  (by
    intro α x
    funext t
    show FileAction.bind x (fun a => FileAction.pure (id a)) t = x t
    unfold FileAction.bind FileAction.pure
    cases h : x t with
    | mk r t' => cases r <;> rfl)
  (by intro α β a f; rfl)
  (by
    intro α β γ x f g
    funext t
    show FileAction.bind (FileAction.bind x f) g t =
      FileAction.bind x (fun a => FileAction.bind (f a) g) t
    unfold FileAction.bind
    cases h : x t with
    | mk r t' => cases r <;> rfl)

/-- A failure. -/
def fail (e : ε) : FileAction ε α := fun t => (.error e, t)

/-- A value computed beforehand, or its failure. -/
def ofExcept : Except ε α → FileAction ε α
  | .ok a => pure a
  | .error e => fail e

/-- A look at the tree. -/
def ask (f : FileTree → α) : FileAction ε α := fun t => (.ok (f t), t)

/-- A look at the tree that can fail. -/
def examine (f : FileTree → Except ε α) : FileAction ε α := fun t => (f t, t)

/-- A single request, which leaves the tree alone when it fails. -/
def change (f : FileTree → Except ε FileTree) : FileAction ε Unit := fun t =>
  match f t with
  | .ok t' => (.ok (), t')
  | .error e => (.error e, t)

/-- The action with its fault turned into another one. -/
def mapError (f : ε → δ) (x : FileAction ε α) : FileAction δ α := fun t =>
  match x t with
  | (.ok a, t) => (.ok a, t)
  | (.error e, t) => (.error (f e), t)

/-- The action with its result as a value. -/
def attempt (x : FileAction ε α) : FileAction δ (Except ε α) := fun t =>
  match x t with
  | (r, t) => (.ok r, t)

/-- The action for every element of a list, up to the first failure. -/
def each (f : α → FileAction ε β) : List α → FileAction ε (List β)
  | [] => pure []
  | a :: rest => do
    let b ← f a
    let bs ← each f rest
    return b :: bs

@[simp] theorem run_pure (a : α) (t : FileTree) :
    (pure a : FileAction ε α).run t = (.ok a, t) := rfl

theorem run_bind (x : FileAction ε α) (f : α → FileAction ε β) (t : FileTree) :
    (x >>= f).run t = match x.run t with
      | (.ok a, t) => (f a).run t
      | (.error e, t) => (.error e, t) := rfl

@[simp] theorem run_fail (e : ε) (t : FileTree) :
    (fail e : FileAction ε α).run t = (.error e, t) := rfl

end FileAction

open FileAction

/-- The directory at a path with all that hold it, as far as they are missing. The paths that lead
to it get shorter by a component each time, which the fuel counts. -/
def createDirectoriesWith : Nat → Path → FileAction FileError Unit
  | 0, _ => fail .notFound
  | fuel + 1, p =>
    if p.text = "" then pure ()
    else do
      match ← attempt (change fun t => t.createDirectory p) with
      | .ok () => pure ()
      | .error .notFound =>
        match p.parent? with
        | none => fail .notFound
        | some parent =>
          createDirectoriesWith fuel parent
          match ← attempt (change fun t => t.createDirectory p) with
          | .ok () => pure ()
          | .error e => if ← ask fun t => t.isDirectory p then pure () else fail e
      | .error e => if ← ask fun t => t.isDirectory p then pure () else fail e

/-- The directory at a path with all that hold it, as far as they are missing. -/
def createDirectories (p : Path) : FileAction FileError Unit :=
  createDirectoriesWith (p.components.length + 1) p

/-- The directories that hold a path. -/
def createHolders (p : Path) : FileAction FileError Unit :=
  match p.parent? with
  | some parent => createDirectories parent
  | none => pure ()

/-- An action for which it is no failure that there is nothing. -/
def ifPresent (x : FileAction FileError Unit) : FileAction FileError Unit := do
  match ← attempt x with
  | .error .notFound => pure ()
  | r => ofExcept r

/-- A directory with all below it removed: first what is below, then the directory itself, which the
path may no longer lead to by then. -/
def removeTree (p : Path) : FileAction FileError Unit := do
  let l ← examine fun t => t.locate p
  change fun t => .ok ((t.below l).foldl (fun t e => t.prune (l ++ e.1)) t)
  ifPresent (change fun t => t.removeDirectory p)

/-- A file or directory removed, if there is one. -/
def removeAll (p : Path) : FileAction FileError Unit := do
  if ← ask fun t => t.isDirectory p then ifPresent (removeTree p)
  else ifPresent (change fun t => t.removeFile p)

/-- A file copied. The target is emptied before the source is read. -/
def copyFile (source target : Path) : FileAction FileError Unit := do
  let _ ← examine fun t => t.read source
  change fun t => t.truncate target
  let content ← examine fun t => t.read source
  change fun t => t.write target content

end ResourceCompiler
