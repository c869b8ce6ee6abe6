import ResourceCompiler.OrderedMap

/-!
# File trees

The directories and files below a root, as a value. A location is the list of names that leads to
a directory or file; the root itself is always a directory.

## Main definitions

* `FileTree`: the nodes by location. What holds a node is a directory.
* `FileTree.get?`: the node at a location.
* `FileTree.insert`: a new node, or a file in the place of a file.
* `FileTree.prune`: the tree without a location and all below it.
* `FileTree.below`: everything below a location.

## Main statements

* `get?_insert`, `get?_prune`: what is at a location after a change.
* `get?_dropLast`: a node lies in a directory.
-/

namespace ResourceCompiler

/-- The names that lead from the root to a node. -/
abbrev Location := List String

/-- Contents are compared byte by byte. -/
instance (priority := high) contentDecidableEq : DecidableEq ByteArray := ByteArray.instDecidableEq

/-- A directory, or a file with its content. -/
inductive Node where
  | directory
  | file (content : ByteArray)
deriving DecidableEq

/-- Directories and files by location. -/
structure FileTree where
  nodes : OrderedMap Location Node
  rooted : ∀ l ∈ nodes.keys, l ≠ [] ∧
    (l.dropLast = [] ∨ nodes.get? l.dropLast = some .directory)

namespace FileTree

/-- The tree without directories and files. -/
def empty : FileTree := ⟨.empty, by simp⟩

/-- The node at a location. -/
def get? (t : FileTree) (l : Location) : Option Node :=
  if l = [] then some .directory else t.nodes.get? l

@[simp] theorem get?_nil (t : FileTree) : t.get? [] = some .directory := rfl

theorem get?_of_ne_nil (t : FileTree) {l : Location} (h : l ≠ []) : t.get? l = t.nodes.get? l := by
  simp [get?, h]

/-- What holds a node is a directory. -/
theorem get?_dropLast {t : FileTree} {l : Location} (h : t.get? l ≠ none) :
    t.get? l.dropLast = some .directory := by
  by_cases hl : l = []
  · subst hl; rfl
  · rw [get?_of_ne_nil t hl] at h
    have hk : l ∈ t.nodes.keys := by
      rw [Ne, OrderedMap.get?_eq_none_iff, Decidable.not_not] at h
      exact h
    rcases (t.rooted l hk).2 with he | hd
    · rw [he]; rfl
    · rw [get?]
      split
      · rfl
      · exact hd

/-- A node put into a directory, where no directory stands yet. -/
def insert (t : FileTree) (l : Location) (n : Node) (holder : t.get? l.dropLast = some .directory)
    (vacant : t.get? l ≠ some .directory) : FileTree where
  nodes := t.nodes.insert l n
  rooted := by
    have hl : l ≠ [] := by rintro rfl; exact vacant rfl
    intro k hk
    have hne : k.dropLast ≠ l → k.dropLast = [] ∨ t.nodes.get? k.dropLast = some .directory →
        k.dropLast = [] ∨ (t.nodes.insert l n).get? k.dropLast = some .directory := by
      intro h
      rw [OrderedMap.get?_insert, if_neg (Ne.symm h)]
      exact id
    rcases OrderedMap.mem_keys_insert.1 hk with hk | rfl
    · obtain ⟨h1, h2⟩ := t.rooted k hk
      refine ⟨h1, ?_⟩
      rcases h2 with h2 | h2
      · exact .inl h2
      · refine hne ?_ (.inr h2)
        rintro rfl
        exact vacant (by rw [get?_of_ne_nil t hl, h2])
    · refine ⟨hl, hne ?_ ?_⟩
      · intro h
        have := congrArg List.length h
        rw [List.length_dropLast] at this
        have := List.length_pos_iff.2 hl
        omega
      · by_cases hd : k.dropLast = []
        · exact .inl hd
        · rw [get?_of_ne_nil t hd] at holder
          exact .inr holder

/-- The tree without a location and all below it. -/
def prune (t : FileTree) (l : Location) : FileTree where
  nodes := t.nodes.filterKeys fun k => !l.isPrefixOf k
  rooted := by
    intro k hk
    rw [OrderedMap.mem_keys_filterKeys] at hk
    obtain ⟨h1, h2⟩ := t.rooted k hk.1
    refine ⟨h1, h2.imp id fun h2 => ?_⟩
    rw [OrderedMap.get?_filterKeys, if_pos, h2]
    have hk2 := hk.2
    simp only [Bool.not_eq_true', ← Bool.not_eq_true, List.isPrefixOf_iff_prefix] at hk2 ⊢
    exact fun h => hk2 (h.trans (List.dropLast_prefix k))

/-- The directories and files below a location, by what leads to them from there. -/
def below (t : FileTree) (l : Location) : List (Location × Node) :=
  t.nodes.entries.filterMap fun (k, n) =>
    if l.isPrefixOf k ∧ k ≠ l then some (k.drop l.length, n) else none

theorem get?_insert (t : FileTree) (l k : Location) (n : Node) (holder vacant) :
    (t.insert l n holder vacant).get? k = if l = k then some n else t.get? k := by
  have hl : l ≠ [] := by rintro rfl; exact vacant rfl
  by_cases hk : k = []
  · subst hk; simp [hl]
  · rw [get?_of_ne_nil _ hk, get?_of_ne_nil _ hk]
    exact OrderedMap.get?_insert t.nodes l k n

theorem get?_prune (t : FileTree) (l k : Location) (hk : k ≠ []) :
    (t.prune l).get? k = if l.isPrefixOf k then none else t.get? k := by
  rw [get?_of_ne_nil _ hk, get?_of_ne_nil _ hk]
  simp only [prune, OrderedMap.get?_filterKeys]
  cases l.isPrefixOf k <;> simp

/-- Two trees with the same node at every location hold the same. -/
def Agree (s t : FileTree) : Prop := ∀ l, s.get? l = t.get? l

end FileTree

end ResourceCompiler
