import ResourceCompiler.Proofs.Metadata.Progress
import ResourceCompiler.Proofs.Metadata.Restoring

/-!
# Calls that store artifacts side by side

Calls that store artifacts at different places do not get into each other's way as long as the files
beside the places are different ones too: each call ends as it would alone, whatever the order of
the steps. Calls that share the file beside their places mix what they write.

* `Call.Served`: trees that take both files of a call.
* `Call.Holds`, `Call.Stepped`: what is true of a call in a phase, and what one step of it leaves.
* `Consistent`, `Consistent.run`: what is true of all calls on their way, and stays true.
* `Apart`, `Apart.of_extension`: calls that have no file in common.
* `Progress.outcome_of_apart`: how calls side by side end.
* `Progress.mixed_of_shared_temporary`: calls that share the file beside their places.
-/

namespace ResourceCompiler.Store

open FileTree

variable {t s u : FileTree} {l : Location}

namespace Call

variable {c : Call} {phase : Phase}

/-- Whether a tree takes both files of a call. -/
structure Served (c : Call) (t : FileTree) : Prop where
  temporary : t.Accepts c.temporary
  place : t.Accepts c.path

theorem temporary_ne (h : t.Accepts c.temporary) : c.temporary.location ≠ c.path.location := by
  obtain ⟨other, hother⟩ := h.exists_lastStep
  exact location_temporary_ne hother

/-- Where its directories are made, an artifact is stored exactly if both files are taken. -/
theorem exists_write_iff (h : (createHolders c.path).run t = (.ok (), t)) :
    (∃ s, (Store.write c.path c.artifact).run t = (.ok (), s)) ↔ c.Served t := by
  constructor
  · intro hwritten
    obtain ⟨s, hs⟩ := hwritten
    obtain ⟨u₁, u₂, u₃, hholders, htruncate, hwrite, hrename⟩ := run_requests hs
    obtain rfl : t = u₁ := (Prod.mk.inj (h.symm.trans hholders)).2
    have htemporary : t.Accepts c.temporary := FileTree.exists_write_iff.1 ⟨u₂, htruncate⟩
    have hsame : t.SameDirectories u₃ :=
      (SameDirectories.of_write htruncate).trans (.of_write hwrite)
    have hread : u₃.read c.temporary = .ok c.content := (write_eq_ok hwrite).1.read_eq
    refine ⟨htemporary, ?_⟩
    apply hsame.accepts_iff.1
    exact (exists_rename_iff hread).1 ⟨s, hrename⟩
  · intro hserved
    obtain ⟨u₂, htruncate, -⟩ := hserved.temporary.exists_gains .empty
    have htemporary := (SameDirectories.of_write htruncate).accepts_iff.2 hserved.temporary
    obtain ⟨u₃, hwrite, -⟩ := htemporary.exists_gains c.content
    have hsame : t.SameDirectories u₃ :=
      (SameDirectories.of_write htruncate).trans (.of_write hwrite)
    have hread : u₃.read c.temporary = .ok c.content := (write_eq_ok hwrite).1.read_eq
    have hplace : u₃.Accepts c.path := hsame.accepts_iff.2 hserved.place
    obtain ⟨s, hrename⟩ := (exists_rename_iff hread).2 hplace
    exact ⟨s, run_write h htruncate hwrite hrename⟩

/-! ### One call -/

/-- What is true of a call in a phase. The first tree is the one that the calls have started
from. -/
def Holds (c : Call) (t s : FileTree) : Phase → Prop
  | .opening => True
  | .writing file count =>
    file = some c.temporary.location ∧ t.Accepts c.temporary ∧ count ≤ c.content.size ∧
      s.get? c.temporary.location = some (.file (c.content.extract 0 count))
  | .ended (.ok ()) =>
    c.Served t ∧ s.read c.path = .ok c.content ∧ s.get? c.temporary.location = none
  | .ended (.error _) => ¬ c.Served t

/-- What a step of a call leaves, which brings it into a phase. Only the file beside the place has
changed, and the place too if the call has succeeded. -/
structure Stepped (c : Call) (t s : FileTree) (s' : FileTree) (phase : Phase) : Prop where
  same : t.SameDirectories s'
  holds : c.Holds t s' phase
  kept : ∀ l, (t.Accepts c.temporary → l ≠ c.temporary.location) →
    (phase = .ended (.ok ()) → l ≠ c.path.location) → s'.get? l = s.get? l

/-- What is true of a call stays true while its files stay as they are. -/
theorem Holds.of_kept (h : c.Holds t u phase) (hsame : u.SameDirectories s)
    (htemporary : s.get? c.temporary.location = u.get? c.temporary.location)
    (hplace : s.get? c.path.location = u.get? c.path.location) : c.Holds t s phase := by
  cases phase with
  | opening => trivial
  | writing file count =>
    obtain ⟨hfile, haccepts, hcount, hcontent⟩ := h
    exact ⟨hfile, haccepts, hcount, htemporary.trans hcontent⟩
  | ended r =>
    cases r with
    | ok =>
      obtain ⟨hserved, hread, hgone⟩ := h
      exact ⟨hserved, hsame.read_eq_ok hplace hread, htemporary.trans hgone⟩
    | error e => exact h

/-- A file that is moved elsewhere does not matter to a call. -/
theorem Holds.relocate_eq {source target : Location} (h : c.Holds t s phase)
    (hsource : c.temporary.location ≠ source) (htarget : c.temporary.location ≠ target) :
    phase.relocate source target = phase := by
  cases phase with
  | opening => rfl
  | ended r => rfl
  | writing file count =>
    obtain ⟨rfl, -⟩ := h
    rw [Phase.relocate, if_neg hsource, if_neg htarget]
    split <;> rfl

end Call

namespace Progress

variable {ι : Type} [DecidableEq ι] (calls : ι → Call) {σ : Progress ι} {i : ι} {count : Nat}
  (n : Nat) {file : Option Location}

/-- The file beside the place is opened where the tree takes it. -/
theorem stepped_open (hsame : t.SameDirectories σ.tree) (hphase : σ.phase i = .opening) :
    (calls i).Stepped t σ.tree (advance calls σ i n).tree ((advance calls σ i n).phase i) := by
  have htruncate_iff :
      (∃ s, σ.tree.truncate (calls i).temporary = .ok s) ↔ t.Accepts (calls i).temporary :=
    FileTree.exists_write_iff.trans hsame.accepts_iff
  cases htruncate : σ.tree.truncate (calls i).temporary with
  | ok s =>
    have haccepts := htruncate_iff.1 ⟨s, htruncate⟩
    have hgains := (gains_of_write htruncate).1
    rw [advance_open calls hphase htruncate, tree_enter, phase_enter]
    refine ⟨hsame.trans (.of_write htruncate), ⟨rfl, haccepts, Nat.zero_le _, ?_⟩, ?_⟩
    · rw [hgains.get?_self, ByteArray.extract_same]
    · intro l hl _
      exact hgains.get?_of_ne (hl haccepts)
  | error e =>
    have hrefused : ¬ (calls i).Served t := by
      intro hserved
      obtain ⟨s, hs⟩ := htruncate_iff.2 hserved.temporary
      rw [htruncate] at hs
      cases hs
    rw [advance_open_error calls hphase htruncate, tree_enter, phase_enter]
    exact ⟨hsame, hrefused, fun l _ _ => rfl⟩

/-- The next bytes are written behind the first ones. -/
theorem stepped_write (hsame : t.SameDirectories σ.tree) (hphase : σ.phase i = .writing file count)
    (hholds : (calls i).Holds t σ.tree (.writing file count))
    (hmore : count < (calls i).content.size) :
    (calls i).Stepped t σ.tree (advance calls σ i n).tree ((advance calls σ i n).phase i) := by
  obtain ⟨rfl, haccepts, hcount, hcontent⟩ := hholds
  have hgains := gains_overwrite hcontent count
    ((calls i).content.extract count (count + (n + 1)))
  rw [overwritten_extract _ hcount] at hgains
  have hfile : σ.tree.get? (calls i).temporary.location ≠ some .directory := by
    rw [hcontent]
    exact nofun
  rw [advance_write calls hphase hmore, tree_enter, phase_enter]
  refine ⟨hsame.trans (.of_gains hgains hfile), ⟨rfl, haccepts, ?_, hgains.get?_self⟩, ?_⟩
  · rw [ByteArray.size_extract]
    generalize (calls i).content.size = size at hcount ⊢
    omega
  · intro l hl _
    exact hgains.get?_of_ne (hl haccepts)

/-- The file is moved when all is written, where the tree takes one at the place. -/
theorem stepped_rename (hsame : t.SameDirectories σ.tree)
    (hphase : σ.phase i = .writing file count)
    (hholds : (calls i).Holds t σ.tree (.writing file count))
    (hmore : ¬ count < (calls i).content.size) :
    (calls i).Stepped t σ.tree (advance calls σ i n).tree ((advance calls σ i n).phase i) := by
  obtain ⟨-, haccepts, hcount, hcontent⟩ := hholds
  rw [Nat.le_antisymm hcount (Nat.le_of_not_lt hmore), ByteArray.extract_zero_size] at hcontent
  have hread : σ.tree.read (calls i).temporary = .ok (calls i).content :=
    (hsame.accepts_iff.2 haccepts).read_eq hcontent
  have hrename_iff : (∃ s, σ.tree.rename (calls i).temporary (calls i).path = .ok s) ↔
      t.Accepts (calls i).path :=
    (exists_rename_iff hread).trans hsame.accepts_iff
  cases hrename : σ.tree.rename (calls i).temporary (calls i).path with
  | ok s =>
    have hplace := hrename_iff.1 ⟨s, hrename⟩
    have hne := Call.temporary_ne haccepts
    have hget := get?_rename hread hrename
    have hsame' := hsame.trans (.of_rename hread hrename)
    rw [advance_rename calls hphase hmore hrename, tree_enter, phase_enter]
    refine ⟨hsame', ⟨⟨haccepts, hplace⟩, ?_, ?_⟩, ?_⟩
    · apply (hsame'.accepts_iff.2 hplace).read_eq
      rw [hget, if_pos rfl]
    · rw [hget, if_neg hne, if_pos rfl]
    · intro l hl hl'
      rw [hget, if_neg (hl' rfl), if_neg (hl haccepts)]
  | error e =>
    have hrefused : ¬ (calls i).Served t := by
      intro hserved
      obtain ⟨s, hs⟩ := hrename_iff.2 hserved.place
      rw [hrename] at hs
      cases hs
    rw [advance_rename_error calls hphase hmore hrename, tree_enter, phase_enter]
    exact ⟨hsame, hrefused, fun l _ _ => rfl⟩

/-- **One step** keeps what is true of the call that takes it. -/
theorem stepped_advance (hsame : t.SameDirectories σ.tree)
    (hholds : (calls i).Holds t σ.tree (σ.phase i)) :
    (calls i).Stepped t σ.tree (advance calls σ i n).tree ((advance calls σ i n).phase i) := by
  cases hphase : σ.phase i with
  | opening => exact stepped_open calls n hsame hphase
  | writing file count =>
    rw [hphase] at hholds
    by_cases hmore : count < (calls i).content.size
    · exact stepped_write calls n hsame hphase hholds hmore
    · exact stepped_rename calls n hsame hphase hholds hmore
  | ended r =>
    rw [advance_ended calls hphase, hphase]
    rw [hphase] at hholds
    exact ⟨hsame, hholds, fun l _ _ => rfl⟩

end Progress

/-! ### Calls side by side -/

variable {ι : Type} {calls : ι → Call}

/-- Calls that have no file in common. -/
structure Apart (calls : ι → Call) : Prop where
  places : ∀ i j, i ≠ j → (calls i).path.location ≠ (calls j).path.location
  beside : ∀ i j, i ≠ j → (calls i).path.location ≠ (calls j).temporary.location
  temporaries : ∀ i j, i ≠ j → (calls i).temporary.location ≠ (calls j).temporary.location

/-- Where a place with the extension of artifacts is, and the file beside it. -/
theorem beside_of_extension {p : Path} {other : String}
    (h : (temporary p).lastStep = .down other) (hext : p.extension? = some "json") :
    ∃ l stem, p.location = l ++ [String.ofList (stem ++ ".json".toList)] ∧
      (temporary p).location = l ++ [String.ofList (stem ++ ".json.tmp".toList)] := by
  obtain ⟨as, name, hplace, hbeside, hother⟩ := strides_temporary h
  have hfile : p.fileName? = some name := by
    rw [Path.fileName?_eq, hplace, List.getLast?_concat]
  rw [Path.extension?, hfile, Option.bind_some, Option.map_eq_some_iff] at hext
  obtain ⟨ext, hdivide, hjson⟩ := hext
  obtain rfl : ext = "json".toList := by
    rw [← hjson, String.toList_ofList]
  rcases Path.divideName_cases name.toList with hself | ⟨stem, ext, hparts, -, -, hname⟩
  · rw [hself] at hdivide
    cases hdivide
  · rw [hparts] at hdivide hother
    obtain rfl : ext = "json".toList := Option.some.inj hdivide
    refine ⟨as.foldl Path.Step.from [], stem, ?_, ?_⟩
    · rw [Path.location_of_strides hplace, ← String.ofList_toList (s := name), hname]
      rfl
    · rw [Path.location_of_strides hbeside, ← String.ofList_toList (s := other), hother]

/-- **Places with the extension of artifacts are enough**: calls for different ones have no file in
common. -/
theorem Apart.of_extension
    (hnamed : ∀ i, ∃ other, (calls i).temporary.lastStep = .down other)
    (hext : ∀ i, (calls i).path.extension? = some "json")
    (hplaces : ∀ i j, i ≠ j → (calls i).path.location ≠ (calls j).path.location) :
    Apart calls := by
  have hbeside (i : ι) : ∃ l stem,
      (calls i).path.location = l ++ [String.ofList (stem ++ ".json".toList)] ∧
      (calls i).temporary.location = l ++ [String.ofList (stem ++ ".json.tmp".toList)] := by
    obtain ⟨other, hother⟩ := hnamed i
    exact beside_of_extension hother (hext i)
  refine ⟨hplaces, ?_, ?_⟩
  · intro i j _ heq
    obtain ⟨l, stem, hplace, -⟩ := hbeside i
    obtain ⟨k, stem', -, htemporary⟩ := hbeside j
    rw [hplace, htemporary] at heq
    have hnames := List.singleton_inj.1 (List.append_inj' heq rfl).2
    have hlast := congrArg (fun name => name.toList.getLast?) hnames
    simp at hlast
  · intro i j hne heq
    obtain ⟨l, stem, hplace, htemporary⟩ := hbeside i
    obtain ⟨k, stem', hplace', htemporary'⟩ := hbeside j
    rw [htemporary, htemporary'] at heq
    obtain ⟨rfl, hnames⟩ := List.append_inj' heq rfl
    obtain rfl := List.append_cancel_right (String.ofList_injective (List.singleton_inj.1 hnames))
    exact hplaces i j hne (hplace.trans hplace'.symm)

/-- What is true of calls on their way. Only files of calls have changed, and the place of a call
only if it has succeeded. -/
structure Consistent (calls : ι → Call) (t : FileTree) (σ : Progress ι) : Prop where
  same : t.SameDirectories σ.tree
  holds : ∀ i, (calls i).Holds t σ.tree (σ.phase i)
  kept : ∀ l, (∀ i, t.Accepts (calls i).temporary → l ≠ (calls i).temporary.location) →
    (∀ i, σ.phase i = .ended (.ok ()) → l ≠ (calls i).path.location) → σ.tree.get? l = t.get? l

namespace Consistent

theorem start (calls : ι → Call) (t : FileTree) : Consistent calls t (Progress.start t) :=
  ⟨.refl t, fun _ => trivial, fun _ _ _ => rfl⟩

variable [DecidableEq ι] {σ : Progress ι}

/-- A step of one call leaves the phases of the others as they are. -/
theorem phase_advance (hapart : Apart calls) (h : Consistent calls t σ) {i j : ι} (hne : j ≠ i)
    (n : Nat) : (Progress.advance calls σ i n).phase j = σ.phase j := by
  rcases Progress.phase_advance_of_ne calls σ n hne with hphase | hphase
  · exact hphase
  · rw [hphase]
    apply (h.holds j).relocate_eq
    · exact hapart.temporaries j i hne
    · exact (hapart.beside i j (Ne.symm hne)).symm

/-- **One step of any call** keeps what is true of all of them. -/
theorem advance (hapart : Apart calls) (h : Consistent calls t σ) (i : ι) (n : Nat) :
    Consistent calls t (Progress.advance calls σ i n) := by
  have hstepped := Progress.stepped_advance calls n h.same (h.holds i)
  have hother {l : Location} (htemporary : l ≠ (calls i).temporary.location)
      (hplace : l ≠ (calls i).path.location) :
      (Progress.advance calls σ i n).tree.get? l = σ.tree.get? l :=
    hstepped.kept l (fun _ => htemporary) fun _ => hplace
  refine ⟨hstepped.same, ?_, ?_⟩
  · intro j
    by_cases hj : j = i
    · subst hj
      exact hstepped.holds
    · rw [h.phase_advance hapart hj n]
      apply (h.holds j).of_kept (h.same.symm.trans hstepped.same)
      · exact hother (hapart.temporaries j i hj) (hapart.beside i j (Ne.symm hj)).symm
      · exact hother (hapart.beside j i hj) (hapart.places j i hj)
  · intro l htemporary hplace
    rw [hstepped.kept l (htemporary i) (hplace i)]
    apply h.kept l htemporary
    intro j hended
    apply hplace j
    by_cases hj : j = i
    · subst hj
      rw [Progress.advance_ended calls hended, hended]
    · rw [h.phase_advance hapart hj n, hended]

/-- **Steps of calls in any order** keep what is true of all of them. -/
theorem run (hapart : Apart calls) (h : Consistent calls t σ) (schedule : List (ι × Nat)) :
    Consistent calls t (Progress.run calls σ schedule) := by
  induction schedule generalizing σ with
  | nil => exact h
  | cons turn schedule ih => exact ih (h.advance hapart turn.1 turn.2)

end Consistent

namespace Progress

variable [DecidableEq ι]

/-- **Calls with no file in common do not get into each other's way**, whatever the order of their
steps: a call that has ended has succeeded exactly if it does alone, its place then holds its own
artifact, and a call that gets its turns ends. -/
theorem outcome_of_apart (calls : ι → Call) (hapart : Apart calls) (t : FileTree)
    (schedule : List (ι × Nat)) (i : ι) :
    ((createHolders (calls i).path).run t = (.ok (), t) →
      ∀ r, (run calls (start t) schedule).phase i = .ended r →
        (r = .ok () ↔
          ∃ s, (Store.write (calls i).path (calls i).artifact).run t = (.ok (), s))) ∧
      ((run calls (start t) schedule).phase i = .ended (.ok ()) →
        (run calls (start t) schedule).tree.read (calls i).path = .ok (calls i).content) ∧
      ((calls i).content.size + 2 ≤ turns i schedule →
        ∃ r, (run calls (start t) schedule).phase i = .ended r) := by
  have hholds := ((Consistent.start calls t).run hapart schedule).holds i
  refine ⟨?_, ?_, exists_ended calls t schedule i⟩
  · intro hholders r hended
    rw [Call.exists_write_iff hholders]
    rw [hended] at hholds
    cases r with
    | ok => exact iff_of_true rfl hholds.1
    | error e => exact iff_of_false nofun hholds
  · intro hended
    rw [hended] at hholds
    exact hholds.2.1

/-- Two calls. -/
def pair (a b : Call) : Bool → Call
  | true => a
  | false => b

theorem pair_true (a b : Call) : pair a b true = a := rfl

theorem pair_false (a b : Call) : pair a b false = b := rfl

/-- Two calls that store artifacts in one directory. -/
def ferries : Bool → Call :=
  pair ⟨⟨"quay/jvm.json"⟩, ⟨⟨"ferryMain", by decide⟩, "jvm", ⟨"f1"⟩, []⟩⟩
    ⟨⟨"quay/js.json"⟩, ⟨⟨"bargeMain", by decide⟩, "js", ⟨"f2"⟩, []⟩⟩

def quay : FileTree := ((createDirectories ⟨"quay"⟩).run .empty).2

/-- The calls take turns, for a byte at a time. -/
def inTurns (rounds : Nat) : List (Bool × Nat) :=
  (List.replicate rounds [(true, 0), (false, 0)]).flatten

theorem outcome_of_apart_ferries :
    Apart ferries ∧ (createHolders (ferries true).path).run quay = (.ok (), quay) ∧
      (ferries true).content.size + 2 ≤ turns true (inTurns 200) ∧
      (run ferries (start quay) (inTurns 200)).phase true = .ended (.ok ()) ∧
      (run ferries (start quay) (inTurns 200)).tree.read (ferries true).path =
        .ok (ferries true).content := by
  have hapart : Apart ferries := ⟨by decide +kernel, by decide +kernel, by decide +kernel⟩
  have hholders : (createHolders (ferries true).path).run quay = (.ok (), quay) := rfl
  have hturns : (ferries true).content.size + 2 ≤ turns true (inTurns 200) := by decide +kernel
  have hserved : (ferries true).Served quay :=
    ⟨⟨by decide +kernel, by decide +kernel, by decide +kernel⟩,
      ⟨by decide +kernel, by decide +kernel, by decide +kernel⟩⟩
  obtain ⟨houtcome, hread, hends⟩ := outcome_of_apart ferries hapart quay (inTurns 200) true
  obtain ⟨r, hended⟩ := hends hturns
  obtain rfl := (houtcome hholders r hended).2 ((Call.exists_write_iff hholders).2 hserved)
  exact ⟨hapart, hholders, hturns, hended, hread hended⟩

/-! ### Calls with a file in common -/

/-- A call that opens the file beside its place and fills it at once. -/
theorem filled_of_opening (calls : ι → Call) {σ : Progress ι} {i : ι}
    (hsame : t.SameDirectories σ.tree) (hphase : σ.phase i = .opening)
    (haccepts : t.Accepts (calls i).temporary) :
    ∃ σ', run calls σ [(i, 0), (i, (calls i).content.size)] = σ' ∧
      t.SameDirectories σ'.tree ∧
      σ'.phase i = .writing (some (calls i).temporary.location) (calls i).content.size ∧
      σ'.tree.get? (calls i).temporary.location = some (.file (calls i).content) ∧
      ∀ j, j ≠ i → σ'.phase j = σ.phase j := by
  have hpos := (calls i).size_content_pos
  have hwhole : 0 + ((calls i).content.extract 0
      (0 + ((calls i).content.size + 1))).size = (calls i).content.size := by
    rw [ByteArray.size_extract]
    generalize (calls i).content.size = size
    omega
  obtain ⟨s, htruncate, -⟩ := (hsame.accepts_iff.2 haccepts).exists_gains .empty
  have hopened := stepped_open calls 0 hsame hphase
  rw [advance_open calls hphase htruncate, tree_enter, phase_enter] at hopened
  have hopen := phase_enter σ i s (.writing (some (calls i).temporary.location) 0)
  have hfilled := stepped_write calls (calls i).content.size hopened.same hopen hopened.holds hpos
  rw [advance_write calls hopen hpos, phase_enter, hwhole] at hfilled
  refine ⟨_, rfl, ?_⟩
  rw [run_cons, run_cons, advance_open calls hphase htruncate, advance_write calls hopen hpos,
    hwhole]
  obtain ⟨-, -, -, hcontent⟩ := hfilled.holds
  rw [ByteArray.extract_zero_size] at hcontent
  refine ⟨hfilled.same, phase_enter _ _ _ _, hcontent, ?_⟩
  intro j hj
  show (((σ.enter i s _).enter i _ _).phase j) = σ.phase j
  rw [phase_enter_of_ne _ _ _ hj, phase_enter_of_ne _ _ _ hj]

/-- **Calls that share the file beside their places mix what they write.** When the second call
fills the file after the first one has, the first one succeeds with the artifact of the second one,
which then fails. -/
theorem mixed_of_shared_temporary {a b : Call} (ha : a.Served t) (hb : b.Served t)
    (hshared : a.temporary.location = b.temporary.location) :
    ∃ σ, run (pair a b) (start t) [(true, 0), (true, a.content.size), (false, 0),
        (false, b.content.size), (true, 0), (false, 0)] = σ ∧
      σ.phase true = .ended (.ok ()) ∧ σ.tree.read a.path = .ok b.content ∧
      σ.phase false = .ended (.error (.unwritable b.path .notFound)) := by
  have hne := Call.temporary_ne ha.temporary
  have hstart : (start t : Progress Bool).phase true = .opening := rfl
  obtain ⟨σ₂, hσ₂, hsame₂, hphase₂, -, hother₂⟩ :=
    filled_of_opening (pair a b) (.refl t) hstart ha.temporary
  rw [pair_true] at hσ₂ hphase₂
  have hopening : σ₂.phase false = .opening := hother₂ false nofun
  obtain ⟨σ₄, hσ₄, hsame₄, hphase₄, hcontent₄, hother₄⟩ :=
    filled_of_opening (pair a b) hsame₂ hopening hb.temporary
  rw [pair_false] at hσ₄ hphase₄ hcontent₄
  -- the first call takes what the second one has written
  have hread : σ₄.tree.read a.temporary = .ok b.content := by
    apply (hsame₄.accepts_iff.2 ha.temporary).read_eq
    rw [hshared]
    exact hcontent₄
  obtain ⟨s, hrename⟩ := (exists_rename_iff hread).2 (hsame₄.accepts_iff.2 ha.place)
  have hget := get?_rename hread hrename
  have hsame₅ := hsame₄.trans (.of_rename hread hrename)
  have hphase₄' : σ₄.phase true = .writing (some a.temporary.location) a.content.size :=
    (hother₄ true nofun).trans hphase₂
  have hfirst := advance_rename (pair a b) (n := 0) hphase₄' (Nat.lt_irrefl _) hrename
  generalize hσ₅ : advance (pair a b) σ₄ true 0 = σ₅ at hfirst
  have htree₅ : σ₅.tree = s := by rw [hfirst, tree_enter]
  have hended₅ : σ₅.phase true = .ended (.ok ()) := by rw [hfirst, phase_enter]
  have hwriting₅ : σ₅.phase false = .writing (some a.path.location) b.content.size := by
    rw [hfirst, phase_enter_of_ne _ _ _ Bool.false_ne_true]
    show (σ₄.phase false).relocate a.temporary.location a.path.location = _
    rw [hphase₄, Phase.relocate, if_neg hne, if_pos hshared.symm]
  have hgone : σ₅.tree.rename b.temporary b.path = .error .notFound := by
    rw [htree₅]
    apply (hsame₅.accepts_iff.2 hb.temporary).rename_eq_error
    rw [← hshared, hget, if_neg hne, if_pos rfl]
  have hsecond := advance_rename_error (pair a b) (n := 0) hwriting₅ (Nat.lt_irrefl _) hgone
  refine ⟨advance (pair a b) σ₅ false 0, ?_, ?_, ?_, ?_⟩
  · rw [run_cons, run_cons, run_nil] at hσ₂ hσ₄
    rw [run_cons, run_cons, hσ₂, run_cons, run_cons, hσ₄, run_cons, hσ₅, run_cons, run_nil]
  · rw [hsecond, phase_enter_of_ne _ _ _ Bool.false_ne_true.symm, hended₅]
  · rw [hsecond, tree_enter, htree₅]
    apply (hsame₅.accepts_iff.2 ha.place).read_eq
    rw [hget, if_pos rfl]
  · rw [hsecond, phase_enter]
    rfl

example : temporary ⟨"out/metadata.jvm"⟩ = temporary ⟨"out/metadata.js"⟩ := by decide +kernel

end Progress

end ResourceCompiler.Store
