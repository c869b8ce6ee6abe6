import ResourceCompiler.Json.Value

/-!
# Nesting of JSON values

How many arrays and objects a value opens at once, and what stands in it apart from them. Together
the two say which values can be taken in whole.

* `Json.depth`: the nesting of a value.
* `Json.Proper`: all strings denote texts, and all numbers have a property.
* `Json.readable_iff`: what it takes to take a value in whole.
-/

namespace ResourceCompiler.Json

mutual

/-- The number of arrays and objects that a value opens at once. -/
def depth : Json → Nat
  | .null => 0
  | .bool _ => 0
  | .number _ => 0
  | .string _ => 0
  | .array items => depthItems items + 1
  | .object members => depthMembers members + 1

/-- The largest number that one of the items opens. -/
def depthItems : List Json → Nat
  | [] => 0
  | item :: rest => max (depth item) (depthItems rest)

/-- The largest number that one of the members opens. -/
def depthMembers : List (Option String × Json) → Nat
  | [] => 0
  | (_, value) :: rest => max (depth value) (depthMembers rest)

end

mutual

/-- All strings denote texts, and all numbers have a property. -/
def Proper (number : List Char → Prop) : Json → Prop
  | .null => True
  | .bool _ => True
  | .number written => number written
  | .string text => text.isSome = true
  | .array items => ProperItems number items
  | .object members => ProperMembers number members

/-- All items are proper. -/
def ProperItems (number : List Char → Prop) : List Json → Prop
  | [] => True
  | item :: rest => Proper number item ∧ ProperItems number rest

/-- All members have texts as names and are proper. -/
def ProperMembers (number : List Char → Prop) : List (Option String × Json) → Prop
  | [] => True
  | (name, value) :: rest =>
    name.isSome = true ∧ Proper number value ∧ ProperMembers number rest

end

variable {number : List Char → Prop} {n : Nat}

/-! ### Items and members one by one -/

theorem depthItems_le {items : List Json} :
    depthItems items ≤ n ↔ ∀ item ∈ items, item.depth ≤ n := by
  induction items with
  | nil => simp [depthItems]
  | cons item rest ih => rw [depthItems, Nat.max_le, ih, List.forall_mem_cons]

theorem depthMembers_le {members : List (Option String × Json)} :
    depthMembers members ≤ n ↔ ∀ m ∈ members, m.2.depth ≤ n := by
  induction members with
  | nil => simp [depthMembers]
  | cons m rest ih => rw [depthMembers, Nat.max_le, ih, List.forall_mem_cons]

theorem properItems_iff {items : List Json} :
    ProperItems number items ↔ ∀ item ∈ items, item.Proper number := by
  induction items with
  | nil => simp [ProperItems]
  | cons item rest ih => rw [ProperItems, ih, List.forall_mem_cons]

theorem properMembers_iff {members : List (Option String × Json)} :
    ProperMembers number members ↔ ∀ m ∈ members, m.1.isSome = true ∧ m.2.Proper number := by
  induction members with
  | nil => simp [ProperMembers]
  | cons m rest ih => rw [ProperMembers, ih, List.forall_mem_cons, and_assoc]

/-- An array opens one more than its items. -/
theorem depth_array_le {items : List Json} :
    (array items).depth ≤ n + 1 ↔ ∀ item ∈ items, item.depth ≤ n := by
  rw [depth, Nat.add_le_add_iff_right, depthItems_le]

/-- A record opens one more than its members. -/
theorem depth_record_le {members : List (String × Json)} :
    (record members).depth ≤ n + 1 ↔ ∀ m ∈ members, m.2.depth ≤ n := by
  rw [record, depth, Nat.add_le_add_iff_right, depthMembers_le, List.forall_mem_map]

theorem proper_array {items : List Json} :
    (array items).Proper number ↔ ∀ item ∈ items, item.Proper number := by
  rw [Proper, properItems_iff]

theorem proper_record {members : List (String × Json)} :
    (record members).Proper number ↔ ∀ m ∈ members, m.2.Proper number := by
  rw [record, Proper, properMembers_iff, List.forall_mem_map]
  simp

theorem proper_text (s : String) : (text s).Proper number := rfl

/-! ### Taking values in -/

mutual

/-- **A value can be taken in whole when its numbers are finite, its strings denote texts, and it
fits into the room.** -/
theorem readable_iff (room : Nat) (j : Json) :
    j.readable room = true ↔ j.Proper (isFinite · = true) ∧ j.depth ≤ room := by
  cases j with
  | null => simp [readable, Proper, depth]
  | bool value => simp [readable, Proper, depth]
  | number written => simp [readable, Proper, depth]
  | string text => simp [readable, Proper, depth]
  | array items =>
    have hitems := readableItems_iff (room - 1) items
    simp only [readable, Proper, depth, Bool.and_eq_true, decide_eq_true_eq, hitems]
    constructor
    · rintro ⟨hroom, hproper, hdepth⟩
      exact ⟨hproper, by omega⟩
    · rintro ⟨hproper, hdepth⟩
      exact ⟨by omega, hproper, by omega⟩
  | object members =>
    have hmembers := readableMembers_iff (room - 1) members
    simp only [readable, Proper, depth, Bool.and_eq_true, decide_eq_true_eq, hmembers]
    constructor
    · rintro ⟨hroom, hproper, hdepth⟩
      exact ⟨hproper, by omega⟩
    · rintro ⟨hproper, hdepth⟩
      exact ⟨by omega, hproper, by omega⟩

theorem readableItems_iff (room : Nat) (items : List Json) :
    readableItems room items = true ↔
      ProperItems (isFinite · = true) items ∧ depthItems items ≤ room := by
  match items with
  | [] => simp [readableItems, ProperItems, depthItems]
  | item :: rest =>
    have hitem := readable_iff room item
    have hrest := readableItems_iff room rest
    rw [readableItems, ProperItems, depthItems, Bool.and_eq_true, hitem, hrest, Nat.max_le]
    exact and_and_and_comm

theorem readableMembers_iff (room : Nat) (members : List (Option String × Json)) :
    readableMembers room members = true ↔
      ProperMembers (isFinite · = true) members ∧ depthMembers members ≤ room := by
  match members with
  | [] => simp [readableMembers, ProperMembers, depthMembers]
  | (name, value) :: rest =>
    have hvalue := readable_iff room value
    have hrest := readableMembers_iff room rest
    rw [readableMembers, ProperMembers, depthMembers, Bool.and_eq_true, Bool.and_eq_true, hvalue,
      hrest, Nat.max_le]
    constructor
    · rintro ⟨⟨hname, hproper, hdepth⟩, hproper', hdepth'⟩
      exact ⟨⟨hname, hproper, hproper'⟩, hdepth, hdepth'⟩
    · rintro ⟨⟨hname, hproper, hproper'⟩, hdepth, hdepth'⟩
      exact ⟨⟨hname, hproper, hdepth⟩, hproper', hdepth'⟩

end

end ResourceCompiler.Json
