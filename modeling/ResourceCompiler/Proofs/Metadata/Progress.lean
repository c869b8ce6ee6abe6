import Mathlib.Logic.Function.Basic
import ResourceCompiler.Proofs.FileTree.Accepting

/-!
# Storing step by step

Storing an artifact is not one step for others. The file beside the place is emptied, is filled
piece by piece, and is moved, and other calls take their steps in between. A file that is filled is
open: it is the same file when it gets another name, or none.

* `ByteArray.overwritten`, `FileTree.overwrite`: bytes written into a file that is open.
* `Store.Call`, `Store.Phase`, `Store.Progress`: calls, and how far each of them is.
* `Progress.advance`, `Progress.run`: one step of a call, and steps of calls in some order.
* `Progress.exists_ended`: a call that gets its turns ends.
* `Progress.run_alone`: a call that runs alone does what `Store.write` does.
-/

namespace ResourceCompiler

/-! ### Bytes written into a file -/

/-- A content with bytes written over it from a position on. What lies between its end and the
position is filled with zeros. -/
def overwritten (content : ByteArray) (position : Nat) (bytes : ByteArray) : ByteArray :=
  content.extract 0 position ++ ⟨Array.replicate (position - content.size) 0⟩ ++ bytes ++
    content.extract (position + bytes.size) content.size

/-- The first bytes of a content end with it. -/
theorem extract_zero_min (content : ByteArray) (n : Nat) :
    content.extract 0 (min n content.size) = content.extract 0 n := by
  have hwhole := ByteArray.extract_extract (a := content) (i := 0) (j := content.size) (k := 0)
    (l := n)
  rw [ByteArray.extract_zero_size, Nat.zero_add, Nat.zero_add] at hwhole
  exact hwhole.symm

/-- The next bytes of a content behind the first ones. -/
theorem overwritten_extract (content : ByteArray) {count : Nat} (h : count ≤ content.size)
    (n : Nat) :
    overwritten (content.extract 0 count) count (content.extract count (count + n)) =
      content.extract 0 (count + (content.extract count (count + n)).size) := by
  have hsize : (content.extract 0 count).size = count := by
    rw [ByteArray.size_extract]
    omega
  have hstart : (content.extract 0 count).extract 0 count = content.extract 0 count := by
    rw [ByteArray.extract_extract]
    congr 1
    omega
  have hrest : (content.extract 0 count).extract
      (count + (content.extract count (count + n)).size) count = .empty := by
    rw [ByteArray.extract_eq_empty_iff]
    omega
  have hend : min (count + n) content.size = count + (content.extract count (count + n)).size := by
    rw [ByteArray.size_extract]
    omega
  rw [overwritten, hsize, hstart, hrest, Nat.sub_self]
  calc
    content.extract 0 count ++ .empty ++ content.extract count (count + n) ++ .empty
      = content.extract (min 0 count) (max count (count + n)) := by
        rw [ByteArray.append_empty, ByteArray.append_empty, ByteArray.extract_append_extract]
    _ = content.extract 0 (min (count + n) content.size) := by
        rw [extract_zero_min, Nat.zero_min, Nat.max_eq_right (Nat.le_add_right count n)]
    _ = content.extract 0 (count + (content.extract count (count + n)).size) := by rw [hend]

theorem overwritten_empty (bytes : ByteArray) : overwritten .empty 0 bytes = bytes := by
  have hnone (i : Nat) : ByteArray.empty.extract i 0 = .empty := by
    rw [ByteArray.extract_eq_empty_iff]
    exact Nat.le_trans (Nat.min_le_left _ _) (Nat.zero_le i)
  rw [overwritten, ByteArray.size_empty, hnone, hnone]
  show ByteArray.empty ++ ByteArray.empty ++ bytes ++ ByteArray.empty = bytes
  rw [ByteArray.append_empty, ByteArray.append_empty, ByteArray.empty_append]

namespace FileTree

variable {t : FileTree} {l k : Location} {content bytes : ByteArray} {position : Nat}

/-- Bytes written into the file at a location. -/
def overwrite (t : FileTree) (l : Location) (position : Nat) (bytes : ByteArray) : FileTree :=
  match h : t.get? l with
  | some (.file content) =>
    t.insert l (.file (overwritten content position bytes))
      (get?_dropLast (by rw [h]; exact Option.some_ne_none _)) (by rw [h]; exact nofun)
  | _ => t

theorem overwrite_eq (h : t.get? l = some (.file content)) (holder vacant) :
    t.overwrite l position bytes =
      t.insert l (.file (overwritten content position bytes)) holder vacant := by
  rw [overwrite]
  split
  · rename_i c hc
    obtain rfl : content = c := Node.file.inj (Option.some.inj (h.symm.trans hc))
    rfl
  · rename_i hother
    exact absurd h (hother content)

/-- What writing into a file leaves. -/
theorem gains_overwrite (h : t.get? l = some (.file content)) (position : Nat)
    (bytes : ByteArray) :
    t.Gains l (.file (overwritten content position bytes)) (t.overwrite l position bytes) := by
  intro k
  have hsome : t.get? l ≠ none := by
    rw [h]
    exact Option.some_ne_none _
  have hfile : t.get? l ≠ some .directory := by
    rw [h]
    exact nofun
  rw [overwrite_eq h (get?_dropLast hsome) hfile]
  exact get?_insert t l k _ _ _

/-- A file that is empty is written by its path as it is written where it is. -/
theorem write_eq_overwrite {p : Path} (hl : t.locateFile p = .ok l)
    (h : t.get? l = some (.file .empty)) (bytes : ByteArray) :
    t.write p bytes = .ok (t.overwrite l 0 bytes) := by
  have holder : t.get? l.dropLast = some .directory := by
    apply get?_dropLast
    rw [h]
    exact Option.some_ne_none _
  have vacant : t.get? l ≠ some .directory := by
    rw [h]
    exact nofun
  have hover : t.overwrite l 0 bytes = t.insert l (.file bytes) holder vacant := by
    rw [overwrite_eq h holder vacant, overwritten_empty]
  rw [hover]
  simp only [write, hl, bind, Except.bind, dif_pos vacant, dif_pos holder]
  rfl

end FileTree

namespace Store

open FileTree

/-! ### Calls and their phases -/

/-- A call that stores an artifact at a place. -/
structure Call where
  path : Path
  artifact : Artifact

namespace Call

/-- The file beside the place of a call. -/
def temporary (c : Call) : Path := Store.temporary c.path

/-- What a call puts into its place. -/
def content (c : Call) : ByteArray := c.artifact.text.toUTF8

theorem size_content_pos (c : Call) : 0 < c.content.size := by
  have htext : c.artifact.text ≠ "" := by
    intro h
    have hlist := congrArg String.toList h
    rw [Artifact.text, Json.document, String.toList_ofList] at hlist
    exact List.append_ne_nil_of_right_ne_nil _ (List.cons_ne_nil _ _) hlist
  rw [content, String.toUTF8_eq_toByteArray, String.size_toByteArray]
  exact Nat.pos_of_ne_zero fun h => htext (String.utf8ByteSize_eq_zero_iff.1 h)

end Call

/-- How far a call is, once the directories for it are made. -/
inductive Phase where
  /-- The file beside the place is not open yet. -/
  | opening
  /-- Some bytes are written. The open file is where it is now, if it still has a name. -/
  | writing (file : Option Location) (count : Nat)
  | ended (result : Except StoreError Unit)
deriving DecidableEq

/-- Where an open file is after a file has been moved: with the moved file, or nowhere if it was in
the place that the moved file has taken. -/
def Phase.relocate (source target : Location) : Phase → Phase
  | .writing (some l) count =>
    if source = target then .writing (some l) count
    else if l = source then .writing (some target) count
    else if l = target then .writing none count
    else .writing (some l) count
  | phase => phase

/-- The most steps that a call with some bytes to write has to take. -/
def Phase.rank (size : Nat) : Phase → Nat
  | .opening => size + 2
  | .writing _ count => size - count + 1
  | .ended _ => 0

/-- Calls on their way: the tree that they share, and how far each of them is. -/
structure Progress (ι : Type) where
  tree : FileTree
  phase : ι → Phase

namespace Progress

variable {ι : Type} [DecidableEq ι] {σ : Progress ι} {i j : ι} {n : Nat}

/-- The tree is another one, and one call is in another phase. -/
def enter (σ : Progress ι) (i : ι) (t : FileTree) (phase : Phase) : Progress ι :=
  ⟨t, Function.update σ.phase i phase⟩

/-- The open files are where they are after a file has been moved. -/
def relocate (σ : Progress ι) (source target : Location) : Progress ι :=
  ⟨σ.tree, fun i => (σ.phase i).relocate source target⟩

/-- The next step of a call. A piece that is written has at most `n + 1` bytes. -/
def advance (calls : ι → Call) (σ : Progress ι) (i : ι) (n : Nat) : Progress ι :=
  let c := calls i
  match σ.phase i with
  | .opening =>
    match σ.tree.truncate c.temporary with
    | .ok t => σ.enter i t (.writing (some c.temporary.location) 0)
    | .error e => σ.enter i σ.tree (.ended (.error (.unwritable c.temporary e)))
  | .writing file count =>
    if count < c.content.size then
      let bytes := c.content.extract count (count + (n + 1))
      let t := match file with
        | some l => σ.tree.overwrite l count bytes
        | none => σ.tree
      σ.enter i t (.writing file (count + bytes.size))
    else
      match σ.tree.rename c.temporary c.path with
      | .ok t =>
        (σ.relocate c.temporary.location c.path.location).enter i t (.ended (.ok ()))
      | .error e => σ.enter i σ.tree (.ended (.error (.unwritable c.path e)))
  | .ended _ => σ

/-- Steps of calls, one after the other. -/
def run (calls : ι → Call) (σ : Progress ι) (schedule : List (ι × Nat)) : Progress ι :=
  schedule.foldl (fun σ turn => advance calls σ turn.1 turn.2) σ

/-- No call has taken a step. -/
def start (t : FileTree) : Progress ι := ⟨t, fun _ => .opening⟩

theorem run_cons (calls : ι → Call) (σ : Progress ι) (i : ι) (n : Nat)
    (schedule : List (ι × Nat)) :
    run calls σ ((i, n) :: schedule) = run calls (advance calls σ i n) schedule := rfl

theorem run_nil (calls : ι → Call) (σ : Progress ι) : run calls σ [] = σ := rfl

/-! ### One step -/

@[simp] theorem tree_enter (σ : Progress ι) (i : ι) (t : FileTree) (phase : Phase) :
    (σ.enter i t phase).tree = t := rfl

@[simp] theorem phase_enter (σ : Progress ι) (i : ι) (t : FileTree) (phase : Phase) :
    (σ.enter i t phase).phase i = phase := by
  show Function.update σ.phase i phase i = phase
  exact Function.update_self i phase σ.phase

theorem phase_enter_of_ne (σ : Progress ι) (t : FileTree) (phase : Phase) (h : j ≠ i) :
    (σ.enter i t phase).phase j = σ.phase j := by
  show Function.update σ.phase i phase j = σ.phase j
  exact Function.update_of_ne h phase σ.phase

theorem advance_open (calls : ι → Call) {t : FileTree} (h : σ.phase i = .opening)
    (ht : σ.tree.truncate (calls i).temporary = .ok t) :
    advance calls σ i n = σ.enter i t (.writing (some (calls i).temporary.location) 0) := by
  simp only [advance, h, ht]

theorem advance_open_error (calls : ι → Call) {e : FileError} (h : σ.phase i = .opening)
    (he : σ.tree.truncate (calls i).temporary = .error e) :
    advance calls σ i n =
      σ.enter i σ.tree (.ended (.error (.unwritable (calls i).temporary e))) := by
  simp only [advance, h, he]

theorem advance_write (calls : ι → Call) {l : Location} {count : Nat}
    (h : σ.phase i = .writing (some l) count)
    (hcount : count < (calls i).content.size) :
    advance calls σ i n =
      σ.enter i (σ.tree.overwrite l count ((calls i).content.extract count (count + (n + 1))))
        (.writing (some l)
          (count + ((calls i).content.extract count (count + (n + 1))).size)) := by
  simp only [advance, h, if_pos hcount]

theorem advance_rename (calls : ι → Call) {file : Option Location} {count : Nat} {t : FileTree}
    (h : σ.phase i = .writing file count) (hcount : ¬ count < (calls i).content.size)
    (ht : σ.tree.rename (calls i).temporary (calls i).path = .ok t) :
    advance calls σ i n =
      (σ.relocate (calls i).temporary.location (calls i).path.location).enter i t
        (.ended (.ok ())) := by
  simp only [advance, h, if_neg hcount, ht]

theorem advance_rename_error (calls : ι → Call) {file : Option Location} {count : Nat}
    {e : FileError}
    (h : σ.phase i = .writing file count) (hcount : ¬ count < (calls i).content.size)
    (he : σ.tree.rename (calls i).temporary (calls i).path = .error e) :
    advance calls σ i n =
      σ.enter i σ.tree (.ended (.error (.unwritable (calls i).path e))) := by
  simp only [advance, h, if_neg hcount, he]

theorem advance_ended (calls : ι → Call) {r : Except StoreError Unit} (h : σ.phase i = .ended r) :
    advance calls σ i n = σ := by
  simp only [advance, h]

/-- The phase of a call that does not take the step is the same but for where its file is. -/
theorem phase_advance_of_ne (calls : ι → Call) (σ : Progress ι) (n : Nat) (h : j ≠ i) :
    (advance calls σ i n).phase j = σ.phase j ∨
      (advance calls σ i n).phase j =
        (σ.phase j).relocate (calls i).temporary.location (calls i).path.location := by
  cases hphase : σ.phase i with
  | opening =>
    cases htruncate : σ.tree.truncate (calls i).temporary with
    | ok t =>
      rw [advance_open calls hphase htruncate]
      exact .inl (phase_enter_of_ne σ _ _ h)
    | error e =>
      rw [advance_open_error calls hphase htruncate]
      exact .inl (phase_enter_of_ne σ _ _ h)
  | writing file count =>
    by_cases hcount : count < (calls i).content.size
    · refine .inl ?_
      simp only [advance, hphase, if_pos hcount]
      exact phase_enter_of_ne σ _ _ h
    · cases hrename : σ.tree.rename (calls i).temporary (calls i).path with
      | ok t =>
        rw [advance_rename calls hphase hcount hrename]
        exact .inr (phase_enter_of_ne _ _ _ h)
      | error e =>
        rw [advance_rename_error calls hphase hcount hrename]
        exact .inl (phase_enter_of_ne σ _ _ h)
  | ended r =>
    rw [advance_ended calls hphase]
    exact .inl rfl

/-! ### Calls end -/

theorem rank_relocate (size : Nat) (source target : Location) (phase : Phase) :
    (phase.relocate source target).rank size = phase.rank size := by
  cases phase with
  | opening => rfl
  | ended r => rfl
  | writing file count =>
    cases file with
    | none => rfl
    | some l =>
      rw [Phase.relocate]
      split
      · rfl
      · split
        · rfl
        · split <;> rfl

/-- A step brings its call closer to its end. -/
theorem rank_advance (calls : ι → Call) (σ : Progress ι) (i : ι) (n : Nat) :
    ((advance calls σ i n).phase i).rank (calls i).content.size ≤
      (σ.phase i).rank (calls i).content.size - 1 := by
  cases hphase : σ.phase i with
  | opening =>
    cases htruncate : σ.tree.truncate (calls i).temporary with
    | ok t =>
      rw [advance_open calls hphase htruncate, phase_enter]
      generalize (calls i).content.size = size
      exact Nat.le_refl (size + 1)
    | error e =>
      rw [advance_open_error calls hphase htruncate, phase_enter]
      exact Nat.zero_le _
  | writing file count =>
    by_cases hcount : count < (calls i).content.size
    · simp only [advance, hphase, if_pos hcount, phase_enter, Phase.rank, ByteArray.size_extract]
      generalize (calls i).content.size = size at hcount ⊢
      omega
    · cases hrename : σ.tree.rename (calls i).temporary (calls i).path with
      | ok t =>
        rw [advance_rename calls hphase hcount hrename, phase_enter]
        exact Nat.zero_le _
      | error e =>
        rw [advance_rename_error calls hphase hcount hrename, phase_enter]
        exact Nat.zero_le _
  | ended r =>
    rw [advance_ended calls hphase, hphase]
    exact Nat.le_refl _

/-- The number of steps that a call takes. -/
def turns (i : ι) (schedule : List (ι × Nat)) : Nat := (schedule.map Prod.fst).count i

theorem rank_run (calls : ι → Call) (schedule : List (ι × Nat)) (σ : Progress ι) (i : ι) :
    ((run calls σ schedule).phase i).rank (calls i).content.size ≤
      (σ.phase i).rank (calls i).content.size - turns i schedule := by
  induction schedule generalizing σ with
  | nil => exact Nat.le_refl _
  | cons turn schedule ih =>
    obtain ⟨j, n⟩ := turn
    have hrest := ih (advance calls σ j n)
    rw [run_cons]
    by_cases hj : j = i
    · subst hj
      have hturns : turns j ((j, n) :: schedule) = turns j schedule + 1 := List.count_cons_self
      rw [hturns, Nat.add_comm, ← Nat.sub_sub]
      exact hrest.trans (Nat.sub_le_sub_right (rank_advance calls σ j n) _)
    · have hturns : turns i ((j, n) :: schedule) = turns i schedule := List.count_cons_of_ne hj
      rw [hturns]
      refine hrest.trans (Nat.sub_le_sub_right (Nat.le_of_eq ?_) _)
      rcases phase_advance_of_ne calls σ n (Ne.symm hj) with hsame | hsame
      · rw [hsame]
      · rw [hsame, rank_relocate]

/-- **A call that gets its turns ends**, whatever the others do. It needs one turn to open the file
and one to move it, and no more turns than bytes in between. -/
theorem exists_ended (calls : ι → Call) (t : FileTree) (schedule : List (ι × Nat)) (i : ι)
    (h : (calls i).content.size + 2 ≤ turns i schedule) :
    ∃ r, (run calls (start t) schedule).phase i = .ended r := by
  have hrank := rank_run calls schedule (start t) i
  have hstart (size : Nat) : ((start t : Progress ι).phase i).rank size = size + 2 := rfl
  rw [hstart, Nat.sub_eq_zero_of_le h, Nat.le_zero] at hrank
  cases hphase : (run calls (start t) schedule).phase i with
  | ended r => exact ⟨r, rfl⟩
  | opening =>
    rw [hphase] at hrank
    cases hrank
  | writing file count =>
    rw [hphase] at hrank
    cases hrank

/-! ### A call that runs alone -/

/-- Storing an artifact, once the directories for it are made, request by request. -/
theorem run_write_eq (c : Call) {t u : FileTree} (h : (createHolders c.path).run t = (.ok (), u)) :
    (Store.write c.path c.artifact).run t =
      match u.truncate c.temporary with
      | .error e => (.error (.unwritable c.temporary e), u)
      | .ok u₂ =>
        match u₂.write c.temporary c.content with
        | .error e => (.error (.unwritable c.temporary e), u₂)
        | .ok u₃ =>
          match u₃.rename c.temporary c.path with
          | .error e => (.error (.unwritable c.path e), u₃)
          | .ok s => (.ok (), s) := by
  simp only [Call.temporary, Call.content]
  rw [FileAction.run] at h
  cases htruncate : u.truncate (Store.temporary c.path) with
  | error e =>
    simp only [Store.write, requests, FileAction.each, FileAction.run, bind, FileAction.bind,
      FileAction.mapError, FileAction.change, h, htruncate]
  | ok u₂ =>
    cases hwrite : u₂.write (Store.temporary c.path) c.artifact.text.toUTF8 with
    | error e =>
      simp only [Store.write, requests, FileAction.each, FileAction.run, bind, FileAction.bind,
        FileAction.mapError, FileAction.change, h, htruncate, hwrite]
    | ok u₃ =>
      cases hrename : u₃.rename (Store.temporary c.path) c.path with
      | error e =>
        simp only [Store.write, requests, FileAction.each, FileAction.run, bind, FileAction.bind,
          FileAction.mapError, FileAction.change, h, htruncate, hwrite, hrename]
      | ok s =>
        simp only [Store.write, requests, FileAction.each, FileAction.run, bind, FileAction.bind,
          FileAction.mapError, FileAction.change, h, htruncate, hwrite, hrename]
        rfl

/-- Nothing is written where the directories cannot be made. -/
theorem run_write_eq_error (c : Call) {t u : FileTree} {e : FileError}
    (h : (createHolders c.path).run t = (.error e, u)) :
    (Store.write c.path c.artifact).run t = (.error (.unwritable c.path e), u) := by
  rw [FileAction.run] at h
  simp only [Store.write, requests, FileAction.each, FileAction.run, bind, FileAction.bind,
    FileAction.mapError, h]

/-- The turns of a call that opens its file, fills it at once, and moves it. -/
def straight (c : Call) : List (Unit × Nat) := [((), 0), ((), c.content.size), ((), 0)]

theorem run_of_ended {σ : Progress Unit} {c : Call} {r : Except StoreError Unit}
    (h : σ.phase () = .ended r) (schedule : List (Unit × Nat)) :
    run (fun _ => c) σ schedule = σ := by
  induction schedule with
  | nil => rfl
  | cons turn schedule ih => rw [run_cons, advance_ended _ h, ih]

/-- **A call that runs alone** does what `Store.write` does once the directories are made. -/
theorem run_alone (c : Call) {t u : FileTree} (h : (createHolders c.path).run t = (.ok (), u)) :
    ∃ r, (run (fun _ => c) (start u) (straight c)).phase () = .ended r ∧
      (Store.write c.path c.artifact).run t =
        (r, (run (fun _ => c) (start u) (straight c)).tree) := by
  have hopening : (start u : Progress Unit).phase () = .opening := rfl
  rw [run_write_eq c h, straight, run_cons]
  cases htruncate : u.truncate c.temporary with
  | error e =>
    rw [advance_open_error (fun _ => c) hopening htruncate, run_of_ended (phase_enter _ _ _ _)]
    exact ⟨_, phase_enter _ _ _ _, rfl⟩
  | ok u₂ =>
    have haccepts : u₂.Accepts c.temporary :=
      (SameDirectories.of_write htruncate).accepts_iff.2 (exists_write_iff.1 ⟨_, htruncate⟩)
    have hempty := (gains_of_write htruncate).1.get?_self
    have hwrite := write_eq_overwrite haccepts.locateFile_eq hempty c.content
    -- one piece is as long as what is written
    have hwhole : c.content.extract 0 (0 + (c.content.size + 1)) = c.content := by
      rw [← extract_zero_min, Nat.min_eq_right (by omega), ByteArray.extract_zero_size]
    rw [advance_open (fun _ => c) hopening htruncate]
    generalize hσ₂ : (start u : Progress Unit).enter () u₂ _ = σ₂
    have htree₂ : σ₂.tree = u₂ := by rw [← hσ₂, tree_enter]
    have hphase₂ : σ₂.phase () = .writing (some c.temporary.location) 0 := by
      rw [← hσ₂, phase_enter]
    rw [run_cons, advance_write (fun _ => c) hphase₂ c.size_content_pos, hwhole, htree₂,
      Nat.zero_add]
    generalize hσ₃ : σ₂.enter () _ _ = σ₃
    have htree₃ : σ₃.tree = u₂.overwrite c.temporary.location 0 c.content := by
      rw [← hσ₃, tree_enter]
    have hphase₃ : σ₃.phase () = .writing (some c.temporary.location) c.content.size := by
      rw [← hσ₃, phase_enter]
    simp only [hwrite]
    rw [← htree₃, run_cons]
    cases hrename : σ₃.tree.rename c.temporary c.path with
    | error e =>
      rw [advance_rename_error (fun _ => c) hphase₃ (Nat.lt_irrefl _) hrename]
      exact ⟨_, phase_enter _ _ _ _, rfl⟩
    | ok s =>
      rw [advance_rename (fun _ => c) hphase₃ (Nat.lt_irrefl _) hrename]
      exact ⟨_, phase_enter _ _ _ _, rfl⟩

end Progress

end Store

end ResourceCompiler
