import ResourceCompiler.Native.Plan
import ResourceCompiler.Proofs.FileTree.Writing

/-!
# What a plan leaves behind

A plan that is carried out puts the content of each of its files at the path of the file, in order.
A file that is written twice has the content that was written last, and nothing else changes but for
directories that are made on the way.

* `Output.Gives`: the contents that a file of output can have.
* `Output.perform_eq_ok`, `Plan.perform_eq_ok`: one file, and all files of a plan.
* `Writes`: a tree with the files of a list written to it, one after the other.
* `Writes.keepsAt_of_ne`, `Writes.read_of_ne`: what is left alone.
* `Writes.read_document`, `Writes.read_image`: what is written last at a path.
* `Writes.read_of_alone`: what alone is written at a path.
* `Plan.perform_documents`: documents at places of their own.
-/

namespace ResourceCompiler.Native

open FileAction FileTree

variable {s t u : FileTree} {p : Path} {content : ByteArray}

/-! ### One file -/

/-- Whether a file of output gets a content from a tree. A copy over its own source is left open. -/
def Output.Gives (t : FileTree) (content : ByteArray) : Output → Prop
  | .document _ text => content = text.toUTF8
  | .image _ _ source target =>
    ∀ d, t.read source = .ok d → source.location ≠ target.location → content = d

/-- A file of output is put at its path. -/
theorem Output.perform_eq_ok {o : Output} (h : o.perform.run t = (.ok p, s)) :
    p = o.path ∧ ∃ content, o.Gives t content ∧ t.Put o.path content s := by
  cases o with
  | document path text =>
    obtain ⟨⟨⟩, u, hu, h⟩ := run_bind_eq_ok h
    obtain ⟨⟨⟩, v, hv, h⟩ := run_bind_eq_ok h
    obtain ⟨rfl, rfl⟩ := run_pure_eq_ok h
    have hholders := paved_createHolders (run_mapError_eq_ok hu)
    exact ⟨rfl, text.toUTF8, rfl, .of_paved hholders (put_of_write (run_mapError_eq_ok hv))⟩
  | image platform key source target =>
    obtain ⟨there, _, hask, h⟩ := run_bind_eq_ok h
    obtain ⟨hthere, rfl⟩ := Prod.mk.inj hask
    cases there with
    | false => cases (Prod.mk.inj h).1
    | true =>
      obtain ⟨⟨⟩, u, hu, h⟩ := run_bind_eq_ok h
      obtain ⟨⟨⟩, v, hv, h⟩ := run_bind_eq_ok h
      obtain ⟨rfl, rfl⟩ := run_pure_eq_ok h
      have hholders := paved_createHolders (run_mapError_eq_ok hu)
      obtain ⟨c, hput, hcopy⟩ := put_of_copyFile (run_mapError_eq_ok hv)
      refine ⟨rfl, c, fun d hd => hcopy d (hholders.read_of_read hd), .of_paved hholders hput⟩

/-! ### Files one after the other -/

/-- The tree with files of output written to it, one after the other. -/
inductive Writes : FileTree → List Output → FileTree → Prop where
  | nil (t : FileTree) : Writes t [] t
  | cons {t u s : FileTree} {o : Output} {os : List Output} {content : ByteArray}
      (gives : o.Gives t content) (put : t.Put o.path content u) (rest : Writes u os s) :
      Writes t (o :: os) s

/-- A plan that is carried out has no fault, and its files are written. -/
theorem Plan.perform_eq_ok {plan : Plan} {paths : List Path}
    (h : plan.perform.run t = (.ok paths, s)) :
    ∃ outputs, plan = outputs.map .ok ∧ paths = outputs.map Output.path ∧ Writes t outputs s := by
  induction plan generalizing t paths with
  | nil =>
    obtain ⟨rfl, rfl⟩ := run_pure_eq_ok h
    exact ⟨[], rfl, rfl, .nil t⟩
  | cons step plan ih =>
    obtain ⟨path, u, rest, rfl, hfirst, hrest⟩ := run_each_cons_eq_ok h
    obtain ⟨outputs, rfl, rfl, hwrites⟩ := ih hrest
    cases step with
    | error e => cases (Prod.mk.inj hfirst).1
    | ok o =>
      obtain ⟨rfl, content, hgives, hput⟩ := Output.perform_eq_ok hfirst
      exact ⟨o :: outputs, rfl, rfl, .cons hgives hput hwrites⟩

/-- A plan behind a check has no fault if the check found none. -/
theorem Plan.of_orFault_eq {plan : Plan} {fault : Option GenerateError} {outputs : List Output}
    (h : plan.orFault fault = outputs.map .ok) : fault = none ∧ plan = outputs.map .ok := by
  cases fault with
  | none => exact ⟨rfl, h⟩
  | some e =>
    cases outputs with
    | nil => cases h
    | cons o outputs => cases (List.cons.inj h).1

namespace Writes

variable {l : Location} {outputs before after : List Output} {q : Path}

theorem keeps (h : Writes t outputs s) : t.KeepsDirectories s := by
  induction h with
  | nil t => exact fun _ hl => hl
  | cons _ put _ ih => exact put.keeps.trans ih

/-- Where no file is written, nothing changes but for directories on the way. -/
theorem keepsAt_of_ne (h : Writes t outputs s) (hl : ∀ o ∈ outputs, l ≠ o.path.location) :
    t.KeepsAt s l (∃ o ∈ outputs, o.path.Through l) := by
  induction h with
  | nil t => exact .refl t l _
  | @cons t u s o os content _ put _ ih =>
    refine ((put.keepsAt l (hl o List.mem_cons_self)).mono ?_).trans
      ((ih fun x hx => hl x (List.mem_cons_of_mem o hx)).mono ?_)
    · exact fun hway => ⟨o, List.mem_cons_self, hway⟩
    · exact fun ⟨x, hx, hway⟩ => ⟨x, List.mem_cons_of_mem o hx, hway⟩

/-- Files that are not written over read as before. -/
theorem read_of_ne (h : Writes t outputs s) (hq : ∀ o ∈ outputs, q.location ≠ o.path.location)
    (hread : t.read q = .ok content) : s.read q = .ok content := by
  induction h with
  | nil t => exact hread
  | @cons t u s o os _ _ put _ ih =>
    refine ih (fun x hx => hq x (List.mem_cons_of_mem o hx)) ?_
    exact put.read_of_ne (hq o List.mem_cons_self) hread

theorem of_append (h : Writes t (before ++ after) s) :
    ∃ u, Writes t before u ∧ Writes u after s := by
  induction before generalizing t with
  | nil => exact ⟨t, .nil t, h⟩
  | cons o os ih =>
    cases h with
    | cons gives put rest =>
      obtain ⟨u, hbefore, hafter⟩ := ih rest
      exact ⟨u, .cons gives put hbefore, hafter⟩

/-- What is written last at a path stays. -/
theorem read_last {o : Output} (h : Writes t (before ++ o :: after) s)
    (hlast : ∀ x ∈ after, o.path.location ≠ x.path.location) :
    ∃ u content, Writes t before u ∧ o.Gives u content ∧ s.read o.path = .ok content := by
  obtain ⟨u, hbefore, hrest⟩ := h.of_append
  cases hrest with
  | cons gives put hafter =>
    exact ⟨u, _, hbefore, gives, hafter.read_of_ne hlast put.read_eq⟩

theorem read_document {text : String} (h : Writes t (before ++ .document p text :: after) s)
    (hlast : ∀ x ∈ after, p.location ≠ x.path.location) : s.read p = .ok text.toUTF8 := by
  obtain ⟨u, content, -, hgives, hread⟩ := h.read_last hlast
  exact hgives ▸ hread

/-- Files at places of their own all have their texts. -/
theorem read_of_nodup {text : String} (h : Writes t outputs s)
    (hnodup : (outputs.map fun o => o.path.location).Nodup) (ho : .document p text ∈ outputs) :
    s.read p = .ok text.toUTF8 := by
  obtain ⟨before, after, rfl⟩ := List.append_of_mem ho
  rw [List.map_append, List.map_cons, List.nodup_append, List.nodup_cons] at hnodup
  exact h.read_document fun x hx heq => hnodup.2.1.1 (heq ▸ List.mem_map_of_mem hx)

/-- A copy has the content of its source, unless something is written there before. -/
theorem read_image {platform : String} {key : Key} {source target : Path}
    (h : Writes t (before ++ .image platform key source target :: after) s)
    (hlast : ∀ x ∈ after, target.location ≠ x.path.location)
    (hsource : ∀ x ∈ before, source.location ≠ x.path.location)
    (hne : source.location ≠ target.location) (hread : t.read source = .ok content) :
    s.read target = .ok content := by
  obtain ⟨u, c, hbefore, hgives, hs⟩ := h.read_last hlast
  have hkept := hbefore.read_of_ne hsource hread
  rw [← hgives content hkept hne]
  exact hs

/-- Files stay files. -/
theorem get?_file (h : Writes t outputs s) (hl : t.get? l = some (.file content)) :
    ∃ c, s.get? l = some (.file c) := by
  induction h generalizing content with
  | nil t => exact ⟨content, hl⟩
  | @cons t u s o os c _ put _ ih =>
    by_cases hpath : l = o.path.location
    · subst hpath
      exact ih put.get?_location
    · exact ih ((put.keepsAt l hpath).get?_of_some hl)

/-- There is a file wherever one is written. -/
theorem stat_of_mem (h : Writes t outputs s) {o : Output} (ho : o ∈ outputs) :
    ∃ c, s.stat o.path = .ok (.file c) := by
  induction h with
  | nil t => cases ho
  | @cons t u s x os _ _ put rest ih =>
    rcases List.mem_cons.1 ho with rfl | ho
    · obtain ⟨c, hc⟩ := rest.get?_file put.get?_location
      exact ⟨c, stat_eq_ok_iff.2 ⟨_, locate_of_keeps rest.keeps put.locate_eq, hc⟩⟩
    · exact ih ho

end Writes

/-- A plan of documents at places of their own writes them all, and each has its text. -/
theorem Plan.perform_documents {ι : Type} {path : ι → Path} {text : ι → String} {is : List ι}
    {written : List Path} (hplaces : (is.map fun i => (path i).location).Nodup)
    (h : (Plan.perform (is.map fun i => .ok (.document (path i) (text i)))).run t =
      (.ok written, s)) :
    written = is.map path ∧ (written.map Path.location).Nodup ∧
      ∀ i ∈ is, s.read (path i) = .ok (text i).toUTF8 := by
  obtain ⟨outputs, houtputs, rfl, hwrites⟩ := Plan.perform_eq_ok h
  obtain rfl : is.map (fun i => .document (path i) (text i)) = outputs := by
    have hok : ∀ o o' : Output, Except.ok (ε := GenerateError) o = .ok o' → o = o' :=
      fun _ _ => Except.ok.inj
    rw [← List.map_inj_right hok, ← houtputs, List.map_map]
    rfl
  have hnodup : ((is.map fun i => Output.document (path i) (text i)).map
      fun o => o.path.location).Nodup := by
    rwa [List.map_map]
  refine ⟨by rw [List.map_map]; rfl, by rwa [List.map_map, List.map_map], fun i hi => ?_⟩
  exact hwrites.read_of_nodup hnodup (List.mem_map_of_mem hi)

end ResourceCompiler.Native
