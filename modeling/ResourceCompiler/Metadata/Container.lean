import ResourceCompiler.Resource.Entry

/-!
# Containers

The merged resources of a pass are a list of containers. A container is an object, which declares
the kind of its entries, or a group; both hold entries and further containers.

## Main definitions

* `Container`: a tree of containers.
* `Container.walk`: the container and all below it, depth first.
* `Container.objects`: the objects among them.
* `Container.validate`: no entry twice in a container, none of a foreign kind in an object.
-/

namespace ResourceCompiler

/-- What a container declares about itself. -/
inductive Shape where
  /-- Entries of one kind under a name that links passes. -/
  | object (type : Kind) (role : Role) (visibility : Visibility)
  /-- A grouping without declared kind. -/
  | group
deriving DecidableEq

/-- A named container with its entries and the containers directly below it. -/
inductive Container where
  | node (name : String) (shape : Shape) (values : List Resource) (nested : List Container)

/-- An object: a container that declares a kind. -/
structure ResourceObject where
  name : String
  type : Kind
  role : Role
  visibility : Visibility
  values : List Resource
  nested : List Container

/-- A fault in the structure of a container. -/
inductive ContainerError where
  | kindMismatch (container : String) (key : Key) (expected found : Kind)
  | duplicateKey (container : String) (key : Key)
deriving DecidableEq

namespace Container

/-- The name of a container. -/
def name : Container → String
  | node name _ _ _ => name

/-- What a container declares about itself. -/
def shape : Container → Shape
  | node _ shape _ _ => shape

/-- The entries that a container itself holds. -/
def values : Container → List Resource
  | node _ _ values _ => values

/-- The containers directly below a container. -/
def nested : Container → List Container
  | node _ _ _ nested => nested

/-- The container as an object, if it is one. -/
def object? : Container → Option ResourceObject
  | node name (.object type role visibility) values nested =>
    some ⟨name, type, role, visibility, values, nested⟩
  | node _ .group _ _ => none

mutual

/-- The container and every container below it, depth first. -/
def walk : Container → List Container
  | node name shape values nested => node name shape values nested :: walkAll nested

/-- The containers of a list with all below them, depth first. -/
def walkAll : List Container → List Container
  | [] => []
  | c :: rest => walk c ++ walkAll rest

end

/-- The objects among the containers of a list and all below them, depth first. -/
def objects (cs : List Container) : List ResourceObject := (walkAll cs).filterMap object?

/-! ### Validation -/

/-- The first fault among entries, of which those in `seen` came before: an entry whose kind and
key came before, or an entry that is not of the kind declared. -/
def firstFault (name : String) (declared : Option Kind) (seen : List (Kind × Key)) :
    List Resource → Option ContainerError
  | [] => none
  | r :: rest =>
    if (r.kind, r.key) ∈ seen then some (.duplicateKey name r.key)
    else match declared with
      | none => firstFault name declared ((r.kind, r.key) :: seen) rest
      | some expected =>
        if r.kind = expected then firstFault name declared ((r.kind, r.key) :: seen) rest
        else some (.kindMismatch name r.key expected r.kind)

/-- The kind that a container declares for its entries. -/
def declaredKind : Container → Option Kind
  | node _ (.object type _ _) _ _ => some type
  | node _ .group _ _ => none

/-- The first fault among the entries of a container. -/
def ownFault (c : Container) : Option ContainerError := firstFault c.name c.declaredKind [] c.values

/-- Checks the containers and all below them, each container before those below it. -/
def validate (cs : List Container) : Except ContainerError Unit :=
  match (walkAll cs).findSome? ownFault with
  | some fault => .error fault
  | none => .ok ()

theorem walk_eq (c : Container) : c.walk = c :: walkAll c.nested := by
  cases c; rfl

theorem walkAll_append (cs ds : List Container) :
    walkAll (cs ++ ds) = walkAll cs ++ walkAll ds := by
  induction cs with
  | nil => rfl
  | cons c rest ih => simp [walkAll, ih]

theorem validate_eq_ok_iff {cs : List Container} :
    validate cs = .ok () ↔ ∀ c ∈ walkAll cs, c.ownFault = none := by
  rw [validate, ← List.findSome?_eq_none_iff]
  cases (walkAll cs).findSome? ownFault <;> simp

end Container

end ResourceCompiler
