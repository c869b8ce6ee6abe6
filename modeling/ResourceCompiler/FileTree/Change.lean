import ResourceCompiler.FileTree.Basic

/-!
# Changes between file trees

The single steps that turn one tree into another: what is gone is removed from the depth up, and
what is new or different is made from the root down. Nothing else is touched.

## Main definitions

* `FileTree.Change`: a single step, which changes a single location.
* `FileTree.changes`: the steps from one tree to another.
* `FileTree.Change.carryOut`: what is at each location after steps.

## Main statements

* `carryOut_changes`: the steps from one tree to another lead there.
* `changes_self`: no step leads from a tree to itself.
-/

namespace ResourceCompiler

/-- Whether two nodes are both directories or both files. -/
def Node.sameKind : Node → Node → Bool
  | .directory, .directory => true
  | .file _, .file _ => true
  | _, _ => false

theorem Node.sameKind_self (n : Node) : n.sameKind n = true := by cases n <;> rfl

namespace FileTree

/-- A single step from one tree to another. -/
inductive Change where
  | removeFile (l : Location)
  | removeDirectory (l : Location)
  | createDirectory (l : Location)
  | writeFile (l : Location) (content : ByteArray)
deriving DecidableEq

namespace Change

/-- The step that removes a node. -/
def removing (l : Location) : Node → Change
  | .directory => .removeDirectory l
  | .file _ => .removeFile l

/-- The step that makes a node. -/
def making (l : Location) : Node → Change
  | .directory => .createDirectory l
  | .file content => .writeFile l content

/-- The location that a step changes. -/
def location : Change → Location
  | .removeFile l => l
  | .removeDirectory l => l
  | .createDirectory l => l
  | .writeFile l _ => l

/-- What is at that location after the step. -/
def node? : Change → Option Node
  | .removeFile _ => none
  | .removeDirectory _ => none
  | .createDirectory _ => some .directory
  | .writeFile _ content => some (.file content)

@[simp] theorem location_removing (l : Location) (n : Node) : (removing l n).location = l := by
  cases n <;> rfl

@[simp] theorem location_making (l : Location) (n : Node) : (making l n).location = l := by
  cases n <;> rfl

@[simp] theorem node?_removing (l : Location) (n : Node) : (removing l n).node? = none := by
  cases n <;> rfl

@[simp] theorem node?_making (l : Location) (n : Node) : (making l n).node? = some n := by
  cases n <;> rfl

/-- What is at each location after steps, given what is there before. -/
def carryOut (steps : List Change) (look : Location → Option Node) : Location → Option Node :=
  steps.foldl (fun look c l => if c.location = l then c.node? else look l) look

theorem carryOut_append (steps rest : List Change) (look : Location → Option Node) :
    carryOut (steps ++ rest) look = carryOut rest (carryOut steps look) := by
  simp [carryOut]

/-- Steps leave a location alone that none of them changes. -/
theorem carryOut_of_untouched {steps : List Change} {look : Location → Option Node} {l : Location}
    (h : ∀ c ∈ steps, c.location ≠ l) : carryOut steps look l = look l := by
  induction steps generalizing look with
  | nil => rfl
  | cons c rest ih =>
    have hc : c.location ≠ l := h c List.mem_cons_self
    show carryOut rest _ l = look l
    rw [ih fun d hd => h d (List.mem_cons_of_mem c hd)]
    exact if_neg hc

/-- Steps that agree on a location, of which there is one, settle what is there. -/
theorem carryOut_of_touched {steps : List Change} {look : Location → Option Node} {l : Location}
    {n : Option Node} (h : ∀ c ∈ steps, c.location = l → c.node? = n)
    (touched : ∃ c ∈ steps, c.location = l) : carryOut steps look l = n := by
  induction steps generalizing look with
  | nil => obtain ⟨c, hc, _⟩ := touched; cases hc
  | cons c rest ih =>
    have hr : ∀ d ∈ rest, d.location = l → d.node? = n := fun d hd =>
      h d (List.mem_cons_of_mem c hd)
    show carryOut rest _ l = n
    by_cases ht : ∃ d ∈ rest, d.location = l
    · exact ih hr ht
    · have hc : c.location = l := by
        obtain ⟨d, hd, he⟩ := touched
        rcases List.mem_cons.1 hd with rfl | hd
        · exact he
        · exact absurd ⟨d, hd, he⟩ ht
      rw [carryOut_of_untouched fun d hd he => ht ⟨d, hd, he⟩]
      exact (if_pos hc).trans (h c List.mem_cons_self hc)

end Change

/-- The nodes of a tree from the root down. -/
def descending (t : FileTree) : List (Location × Node) :=
  t.nodes.entries.mergeSort fun a b => a.1.length ≤ b.1.length

/-- Whether a node makes way on the way to a tree. -/
def isGone (t : FileTree) (e : Location × Node) : Bool := !(t.get? e.1).any e.2.sameKind

/-- Whether a tree lacks a node. -/
def lacks (t : FileTree) (e : Location × Node) : Bool := t.get? e.1 ≠ some e.2

/-- The steps from one tree to another. -/
def changes (before after : FileTree) : List Change :=
  ((before.descending.reverse.filter after.isGone).map fun e => .removing e.1 e.2) ++
    (after.descending.filter before.lacks).map fun e => .making e.1 e.2

theorem get?_of_mem_descending {t : FileTree} {e : Location × Node} (h : e ∈ t.descending) :
    t.get? e.1 = some e.2 := by
  rw [descending, List.mem_mergeSort] at h
  have hl : e.1 ≠ [] := (t.rooted e.1 (List.mem_map_of_mem h)).1
  rw [get?_of_ne_nil t hl]
  exact OrderedMap.mem_entries_iff.1 h

theorem mem_descending {t : FileTree} {l : Location} {n : Node} (hl : l ≠ [])
    (h : t.get? l = some n) : (l, n) ∈ t.descending := by
  rw [descending, List.mem_mergeSort]
  rw [get?_of_ne_nil t hl] at h
  exact OrderedMap.mem_entries_iff.2 h

/-- No step leads from a tree to itself. -/
theorem changes_self (t : FileTree) : changes t t = [] := by
  have hg : t.descending.reverse.filter t.isGone = [] := by
    rw [List.filter_eq_nil_iff]
    intro e he
    simp [isGone, get?_of_mem_descending (List.mem_reverse.1 he), Node.sameKind_self]
  have hm : t.descending.filter t.lacks = [] := by
    rw [List.filter_eq_nil_iff]
    intro e he
    simp [lacks, get?_of_mem_descending he]
  simp [changes, hg, hm]

/-- The steps from one tree to another lead there. -/
theorem carryOut_changes (before after : FileTree) :
    Change.carryOut (changes before after) before.get? = after.get? := by
  funext l
  by_cases hl : l = []
  · subst hl
    refine Change.carryOut_of_untouched ?_
    intro c hc he
    simp only [changes, List.mem_append, List.mem_map, List.mem_filter, List.mem_reverse] at hc
    rcases hc with ⟨e, ⟨hm, _⟩, rfl⟩ | ⟨e, ⟨hm, _⟩, rfl⟩
    · rw [descending, List.mem_mergeSort] at hm
      exact (before.rooted e.1 (List.mem_map_of_mem hm)).1 (by simpa using he)
    · rw [descending, List.mem_mergeSort] at hm
      exact (after.rooted e.1 (List.mem_map_of_mem hm)).1 (by simpa using he)
  · rw [changes, Change.carryOut_append]
    cases ha : after.get? l with
    | none =>
      rw [Change.carryOut_of_untouched]
      · cases hb : before.get? l with
        | none =>
          rw [Change.carryOut_of_untouched, hb]
          intro c hc he
          simp only [List.mem_map, List.mem_filter, List.mem_reverse] at hc
          obtain ⟨e, ⟨hm, _⟩, rfl⟩ := hc
          have hs := get?_of_mem_descending hm
          rw [Change.location_removing] at he
          rw [he, hb] at hs
          cases hs
        | some n =>
          refine Change.carryOut_of_touched ?_ ?_
          · intro c hc _
            simp only [List.mem_map] at hc
            obtain ⟨e, _, rfl⟩ := hc
            exact Change.node?_removing e.1 e.2
          · refine ⟨.removing l n, List.mem_map.2 ⟨(l, n), ?_, rfl⟩, Change.location_removing l n⟩
            rw [List.mem_filter, List.mem_reverse]
            exact ⟨mem_descending hl hb, by simp [isGone, ha]⟩
      · intro c hc he
        simp only [List.mem_map, List.mem_filter] at hc
        obtain ⟨e, ⟨hm, _⟩, rfl⟩ := hc
        have hs := get?_of_mem_descending hm
        rw [Change.location_making] at he
        rw [he, ha] at hs
        cases hs
    | some n =>
      by_cases hb : before.get? l = some n
      · rw [Change.carryOut_of_untouched, Change.carryOut_of_untouched, hb]
        · intro c hc he
          simp only [List.mem_map, List.mem_filter, List.mem_reverse] at hc
          obtain ⟨e, ⟨hm, hg⟩, rfl⟩ := hc
          have hs := get?_of_mem_descending hm
          rw [Change.location_removing] at he
          rw [he, hb] at hs
          injection hs with hs
          simp [isGone, he, ha, ← hs, Node.sameKind_self] at hg
        · intro c hc he
          simp only [List.mem_map, List.mem_filter] at hc
          obtain ⟨e, ⟨hm, hg⟩, rfl⟩ := hc
          have hs := get?_of_mem_descending hm
          rw [Change.location_making] at he
          rw [he, ha] at hs
          injection hs with hs
          simp [lacks, he, hb, ← hs] at hg
      · refine Change.carryOut_of_touched ?_ ?_
        · intro c hc he
          simp only [List.mem_map, List.mem_filter] at hc
          obtain ⟨e, ⟨hm, _⟩, rfl⟩ := hc
          have hs := get?_of_mem_descending hm
          rw [Change.location_making] at he
          rw [he, ha] at hs
          rw [Change.node?_making, hs]
        · refine ⟨.making l n, List.mem_map.2 ⟨(l, n), ?_, rfl⟩, Change.location_making l n⟩
          rw [List.mem_filter]
          exact ⟨mem_descending hl ha, by simp [lacks, hb]⟩

end FileTree

end ResourceCompiler
