import Mathlib.Data.List.Basic
import Mathlib.Data.List.TakeDrop
import Mathlib.Data.List.TakeWhile
import ResourceCompiler.Metadata.Store
import ResourceCompiler.Proofs.FileTree.Ways
import ResourceCompiler.Proofs.Sequence

/-!
# Names along paths

A name that is put behind a path leads one location further down, and so do several names one after
the other. The last name can be asked for again, and the file beside a place has the place's
directory in common with it.

* `Text.exists_last`, `Text.span_reverse_append`: the last mark of a text.
* `Path.IsName`: texts that name something in a directory.
* `Path.descend`, `Path.location_descend`: names behind a path.
* `Path.fileName?_eq`, `Path.strides_of_same`: the name at the end, and paths that agree.
* `Path.segments_withoutExtension`, `Path.strides_replaceExtension`: what another extension changes.
* `Store.strides_temporary`: where the file beside a place is.
-/

namespace ResourceCompiler

namespace Text

/-- The fields of two texts with a separator between them. -/
theorem fields_append_sep_append (sep : Char) (as bs : List Char) :
    fields sep (as ++ sep :: bs) = fields sep as ++ fields sep bs := by
  induction as with
  | nil => simp [fields]
  | cons c as ih =>
    rw [List.cons_append, fields, fields, ih]
    by_cases hc : c = sep
    · rw [if_pos hc, if_pos hc, List.cons_append]
    · rw [if_neg hc, if_neg hc]
      cases hf : fields sep as with
      | nil => exact absurd hf (fields_ne_nil sep as)
      | cons f fs => rfl

theorem joined_concat (sep : Char) {parts : List (List Char)} (h : parts ≠ []) (x : List Char) :
    joined sep (parts ++ [x]) = joined sep parts ++ sep :: x := by
  induction parts with
  | nil => exact absurd rfl h
  | cons part rest ih =>
    cases rest with
    | nil => rfl
    | cons next rest =>
      rw [List.cons_append, joined_cons_of_ne_nil _ _ (by simp), ih (List.cons_ne_nil _ _),
        joined_cons_of_ne_nil _ _ (List.cons_ne_nil _ _), List.append_assoc, List.cons_append]

/-- What is joined can be divided inside one of the parts. -/
theorem joined_append_cons_append (sep : Char) (init : List (List Char)) (x y : List Char)
    (rest : List (List Char)) :
    joined sep (init ++ (x ++ y) :: rest) = joined sep (init ++ [x]) ++ joined sep (y :: rest) := by
  induction init with
  | nil =>
    cases rest with
    | nil => rfl
    | cons z rest =>
      rw [List.nil_append, List.nil_append, joined_cons_of_ne_nil _ _ (List.cons_ne_nil z rest),
        joined_cons_of_ne_nil _ _ (List.cons_ne_nil z rest), List.append_assoc]
      rfl
  | cons part init ih =>
    rw [List.cons_append, List.cons_append, joined_cons_of_ne_nil _ _ (by simp),
      joined_cons_of_ne_nil _ _ (by simp), ih, List.append_assoc, List.cons_append]

/-- The fields of what a text starts with are what its fields start with. -/
theorem fields_take (sep : Char) (cs : List Char) (n : Nat) :
    ∃ m, List.Forall₂ (· <+: ·) (fields sep (cs.take n)) ((fields sep cs).take m) := by
  induction cs generalizing n with
  | nil => exact ⟨1, by rw [List.take_nil]; exact .cons List.prefix_rfl .nil⟩
  | cons c r ih =>
    cases n with
    | zero =>
      refine ⟨1, ?_⟩
      cases hf : fields sep (c :: r) with
      | nil => exact absurd hf (fields_ne_nil sep _)
      | cons f fs => exact .cons List.nil_prefix .nil
    | succ n =>
      obtain ⟨m, hm⟩ := ih n
      rw [List.take_succ_cons, fields, fields]
      by_cases hc : c = sep
      · rw [if_pos hc, if_pos hc]
        exact ⟨m + 1, .cons List.prefix_rfl hm⟩
      · rw [if_neg hc, if_neg hc]
        cases hf : fields sep (r.take n) with
        | nil => exact absurd hf (fields_ne_nil sep _)
        | cons f fs =>
          cases hg : fields sep r with
          | nil => exact absurd hg (fields_ne_nil sep r)
          | cons g gs =>
            rw [hf, hg] at hm
            cases m with
            | zero => cases hm
            | succ m =>
              cases hm with
              | cons hfirst hrest =>
                exact ⟨m + 1, .cons (List.cons_prefix_cons.2 ⟨rfl, hfirst⟩) hrest⟩

/-- A text that ends with as many characters less as a part has is cut off behind what stands before
them in the part. -/
theorem fields_cut (sep : Char) {init rest : List (List Char)} {x y : List Char}
    (h : ∀ z ∈ init ++ (x ++ y) :: rest, sep ∉ z) :
    ∃ g gs, fields sep ((joined sep (init ++ (x ++ y) :: rest)).take
        ((joined sep (init ++ (x ++ y) :: rest)).length - y.length)) = init ++ (x ++ g) :: gs ∧
      g <+: y ∧ ∀ z ∈ gs, ∃ w ∈ rest, z <+: w := by
  have hpart : sep ∉ x ∧ sep ∉ y := by
    have hboth := h _ (List.mem_append_right init List.mem_cons_self)
    rw [List.mem_append, not_or] at hboth
    exact hboth
  have hfields : fields sep (joined sep (y :: rest)) = y :: rest := by
    refine fields_joined (List.cons_ne_nil y rest) fun z hz => ?_
    rcases List.mem_cons.1 hz with rfl | hz
    · exact hpart.2
    · exact h z (List.mem_append_right init (List.mem_cons_of_mem _ hz))
  have hlong : y.length ≤ (joined sep (y :: rest)).length := by
    cases rest with
    | nil => exact Nat.le_refl _
    | cons z rest =>
      rw [joined_cons_of_ne_nil _ _ (List.cons_ne_nil z rest), List.length_append]
      exact Nat.le_add_right _ _
  rw [joined_append_cons_append]
  generalize joined sep (y :: rest) = tail at hfields hlong ⊢
  have hlength : (joined sep (init ++ [x]) ++ tail).length - y.length =
      (joined sep (init ++ [x])).length + (tail.length - y.length) := by
    rw [List.length_append]
    omega
  rw [hlength, List.take_length_add_append]
  -- what is left of the text behind the cut has fields of its own
  obtain ⟨m, hm⟩ := fields_take sep tail (tail.length - y.length)
  rw [hfields] at hm
  cases hleft : fields sep (tail.take (tail.length - y.length)) with
  | nil => exact absurd hleft (fields_ne_nil sep _)
  | cons g gs =>
    rw [hleft] at hm
    cases m with
    | zero => cases hm
    | succ m =>
      cases hm with
      | cons hg hgs =>
        refine ⟨g, gs, ?_, hg, ?_⟩
        · rw [← joined_fields sep (tail.take _), hleft, ← joined_append_cons_append]
          refine fields_joined (by simp) fun z hz => ?_
          rcases List.mem_append.1 hz with hz | hz
          · exact h z (List.mem_append_left _ hz)
          · rcases List.mem_cons.1 hz with rfl | hz
            · rw [List.mem_append, not_or]
              exact ⟨hpart.1, fun hmem => hpart.2 (hg.subset hmem)⟩
            · have hfield := List.mem_cons_of_mem g hz
              rw [← hleft] at hfield
              exact not_mem_of_mem_fields hfield
        · intro z hz
          obtain ⟨w, hw, hzw⟩ := exists_of_mem_right hgs.flip hz
          exact ⟨w, List.mem_of_mem_take hw, hzw⟩

/-! ### The last mark of a text -/

theorem exists_last {c : Char} {cs : List Char} (h : c ∈ cs) :
    ∃ before after, cs = before ++ c :: after ∧ c ∉ after := by
  obtain ⟨after, before, hreverse, hafter⟩ := List.eq_append_cons_of_mem (List.mem_reverse.2 h)
  refine ⟨before.reverse, after.reverse, ?_, fun hmem => hafter (List.mem_reverse.1 hmem)⟩
  rw [← List.reverse_reverse cs, hreverse, List.reverse_append, List.reverse_cons,
    List.append_assoc, List.singleton_append]

theorem span_reverse_of_notMem {c : Char} {cs : List Char} (h : c ∉ cs) :
    cs.reverse.span (· ≠ c) = (cs.reverse, []) := by
  have hall : ∀ d ∈ cs.reverse, decide (d ≠ c) = true := fun d hd =>
    decide_eq_true fun heq => h (heq ▸ List.mem_reverse.1 hd)
  rw [List.span_eq_takeWhile_dropWhile, List.takeWhile_eq_self_iff.2 hall,
    List.dropWhile_eq_nil_iff.2 hall]

theorem span_reverse_append {c : Char} (before : List Char) {after : List Char} (h : c ∉ after) :
    (before ++ c :: after).reverse.span (· ≠ c) = (after.reverse, c :: before.reverse) := by
  have hall : ∀ d ∈ after.reverse, decide (d ≠ c) = true := fun d hd =>
    decide_eq_true fun heq => h (heq ▸ List.mem_reverse.1 hd)
  have hreverse : (before ++ c :: after).reverse = after.reverse ++ c :: before.reverse := by
    rw [List.reverse_append, List.reverse_cons, List.append_assoc, List.singleton_append]
  rw [List.span_eq_takeWhile_dropWhile, hreverse, List.takeWhile_append_of_pos hall,
    List.dropWhile_append_of_pos hall, List.takeWhile_cons_of_neg (by simp),
    List.dropWhile_cons_of_neg (by simp), List.append_nil]

end Text

namespace Path

variable {p q : Path}

/-! ### Names behind a path -/

/-- Whether a text names something in a directory. -/
def IsName (s : String) : Prop := '/' ∉ s.toList ∧ s ≠ "" ∧ s ≠ "." ∧ s ≠ ".."

instance (s : String) : Decidable (IsName s) :=
  inferInstanceAs (Decidable (_ ∧ _ ∧ _ ∧ _))

theorem isName_of_head {s : String} {c : Char} {r : List Char} (hs : s.toList = c :: r)
    (hc : c ≠ '.') (hslash : '/' ∉ s.toList) : IsName s := by
  refine ⟨hslash, ?_, ?_, ?_⟩
  all_goals
    rintro rfl
  · cases hs
  · exact hc (List.cons.inj hs).1.symm
  · exact hc (List.cons.inj hs).1.symm

theorem IsName.isIdle {s : String} (h : IsName s) : isIdle s.toList = false := by
  rw [Path.isIdle, Bool.or_eq_false_iff, beq_eq_false_iff_ne, beq_eq_false_iff_ne]
  refine ⟨fun hs => h.2.1 ?_, fun hs => h.2.2.1 ?_⟩
  · exact String.toList_injective hs
  · exact String.toList_injective hs

theorem IsName.ofSegment {s : String} (h : IsName s) : Step.ofSegment s.toList = .down s := by
  have hidle := h.isIdle
  rw [Path.isIdle, Bool.or_eq_false_iff, beq_eq_false_iff_ne, beq_eq_false_iff_ne] at hidle
  have hup : s.toList ≠ ['.', '.'] := fun hs => h.2.2.2 (String.toList_injective hs)
  rw [Step.ofSegment, if_neg (not_or.2 hidle), if_neg hup, String.ofList_toList]

/-- The steps along a path with a relative one behind it are those along both. -/
theorem strides_join (p : Path) (hq : q.isAbsolute = false) :
    (p.join q).strides = p.strides ++ q.strides := by
  have hslash (as bs : List Char) :
      stridesOf (Text.fields '/' (as ++ '/' :: bs)) =
        stridesOf (Text.fields '/' as) ++ stridesOf (Text.fields '/' bs) := by
    rw [Text.fields_append_sep_append, stridesOf_append]
  rw [join, if_neg (by simp [hq])]
  split
  · rename_i hend
    rcases hend with hempty | hlast
    · rw [strides, strides, strides, segments, segments, segments, String.toList_append, hempty]
      rfl
    · obtain ⟨as, has⟩ := List.getLast?_eq_some_iff.1 hlast
      rw [strides, strides, strides, segments, segments, segments, String.toList_append, has,
        List.append_assoc, List.singleton_append, hslash, hslash]
      simp [Text.fields, stridesOf, Step.ofSegment]
  · rw [strides, strides, strides, segments, segments, segments, String.toList_append,
      String.toList_append, List.append_assoc]
    exact hslash _ _

theorem isAbsolute_of_isName {s : String} (h : IsName s) : (⟨s⟩ : Path).isAbsolute = false := by
  rw [isAbsolute, beq_eq_false_iff_ne]
  intro hhead
  refine h.1 ?_
  cases hs : s.toList with
  | nil =>
    rw [hs] at hhead
    cases hhead
  | cons c r =>
    rw [hs, List.head?_cons] at hhead
    rw [Option.some.inj hhead]
    exact List.mem_cons_self

theorem strides_of_isName {s : String} (h : IsName s) : (⟨s⟩ : Path).strides = [.down s] := by
  rw [strides, segments, Text.fields_of_not_mem h.1, stridesOf_singleton h.isIdle, h.ofSegment]

theorem strides_div (p : Path) {s : String} (h : IsName s) :
    (p / s).strides = p.strides ++ [.down s] := by
  show (p.join ⟨s⟩).strides = _
  rw [strides_join p (isAbsolute_of_isName h), strides_of_isName h]

/-- The path with names behind it, one after the other. -/
def descend (p : Path) (names : List String) : Path := names.foldl (fun q s => q / s) p

theorem descend_concat (p : Path) (names : List String) (s : String) :
    p.descend (names ++ [s]) = p.descend names / s := by
  rw [descend, List.foldl_append]
  rfl

theorem strides_descend (p : Path) {names : List String} (h : ∀ s ∈ names, IsName s) :
    (p.descend names).strides = p.strides ++ names.map .down := by
  induction names generalizing p with
  | nil => simp [descend]
  | cons s names ih =>
    show ((p / s).descend names).strides = _
    rw [ih _ fun x hx => h x (List.mem_cons_of_mem s hx), strides_div p (h s List.mem_cons_self)]
    simp

/-- Names behind a path lead down. -/
theorem location_descend (p : Path) {names : List String} (h : ∀ s ∈ names, IsName s) :
    (p.descend names).location = p.location ++ names := by
  rw [location_eq_foldl_strides, strides_descend p h, List.foldl_append, foldl_from_map_down,
    ← location_eq_foldl_strides]

/-- A file by its name in a directory by its name. -/
theorem location_pair (p : Path) {first second : String} (h : IsName first) (h' : IsName second) :
    (p / first / second).location = p.location ++ [first, second] := by
  have hnames : ∀ s ∈ [first, second], IsName s :=
    List.forall_mem_cons.2 ⟨h, List.forall_mem_singleton.2 h'⟩
  rw [← location_descend p hnames]
  rfl

theorem text_join (p : Path) (hq : q.isAbsolute = false) :
    (p.join q).text = if p.text.toList = [] ∨ p.text.toList.getLast? = some '/'
      then p.text ++ q.text else p.text ++ "/" ++ q.text := by
  rw [join, if_neg (by simp [hq])]
  split <;> rfl

/-- A relative path makes nothing absolute. -/
theorem isAbsolute_join (p : Path) (hq : q.isAbsolute = false) :
    (p.join q).isAbsolute = p.isAbsolute := by
  rw [isAbsolute, isAbsolute, text_join p hq]
  cases hp : p.text.toList with
  | nil =>
    rw [if_pos (.inl rfl), String.toList_append, hp]
    exact hq
  | cons c r =>
    split
    · rw [String.toList_append, hp]
      rfl
    · rw [String.toList_append, String.toList_append, hp]
      rfl

/-- Two names may be put behind a path at once. -/
theorem div_div (p : Path) {a b : String} (ha : IsName a) (hb : IsName b) :
    p / (a ++ "/" ++ b) = p / a / b := by
  have hboth : (⟨a ++ "/" ++ b⟩ : Path).isAbsolute = false := by
    have hfirst := isAbsolute_of_isName ha
    obtain ⟨c, r, hcr⟩ : ∃ c r, a.toList = c :: r := by
      cases hcr : a.toList with
      | nil => exact absurd (String.toList_injective hcr) ha.2.1
      | cons c r => exact ⟨c, r, rfl⟩
    rw [isAbsolute] at hfirst ⊢
    rw [hcr] at hfirst
    rw [String.toList_append, String.toList_append, hcr]
    exact hfirst
  -- the text of a path with a name behind it ends with the name
  have hend : ¬ ((p / a).text.toList = [] ∨ (p / a).text.toList.getLast? = some '/') := by
    have hsuffix : ∃ as, (p / a).text.toList = as ++ a.toList := by
      show ∃ as, (p.join ⟨a⟩).text.toList = as ++ a.toList
      rw [text_join p (isAbsolute_of_isName ha)]
      split
      · exact ⟨p.text.toList, String.toList_append⟩
      · exact ⟨(p.text ++ "/").toList, String.toList_append⟩
    obtain ⟨as, has⟩ := hsuffix
    have hne : a.toList ≠ [] := fun h => ha.2.1 (String.toList_injective h)
    rw [has, List.getLast?_append_of_ne_nil _ hne]
    rintro (h | h)
    · exact hne (List.append_eq_nil_iff.1 h).2
    · exact ha.1 (List.mem_of_getLast? h)
  have htext : (p / a / b).text = (p / a).text ++ "/" ++ b := by
    show ((p / a).join ⟨b⟩).text = _
    rw [text_join _ (isAbsolute_of_isName hb), if_neg hend]
  have heq : (p / (a ++ "/" ++ b)).text = (p / a / b).text := by
    rw [htext]
    show (p.join ⟨a ++ "/" ++ b⟩).text = (p.join ⟨a⟩).text ++ "/" ++ b
    rw [text_join p hboth, text_join p (isAbsolute_of_isName ha)]
    split
    · simp only [String.append_assoc]
    · simp only [String.append_assoc]
  cases hl : p / (a ++ "/" ++ b)
  cases hr : p / a / b
  rw [hl, hr] at heq
  exact congrArg Path.mk heq

/-! ### The name at the end -/

/-- The name at the end of a path is that of its last step, if this one goes down. -/
theorem fileName?_eq (p : Path) :
    p.fileName? = match p.strides.getLast? with
      | some (.down name) => some name
      | _ => none := by
  have hstrides : p.strides = stridesOf (lastFirst (start p.segments).2).reverse := by
    rw [stridesOf_reverse_lastFirst, (start_spec p.segments).2.2, strides]
  rw [fileName?, hstrides]
  cases hlast : lastFirst (start p.segments).2 with
  | nil => rfl
  | cons last before =>
    have hidle := isIdle_of_lastFirst_eq_cons hlast
    rw [List.reverse_cons, stridesOf_append, stridesOf_singleton hidle, List.getLast?_concat]
    rw [isIdle, Bool.or_eq_false_iff, beq_eq_false_iff_ne, beq_eq_false_iff_ne] at hidle
    rw [Step.ofSegment, if_neg (not_or.2 hidle)]
    dsimp only
    split
    · rfl
    · rfl

/-- The step that a component asks for, unless it only starts a path. -/
def Component.step? : Component → Option Step
  | .root => none
  | .current => none
  | .parent => some .up
  | .name s => some (.down s)

theorem stridesOf_eq_filterMap (segments : List (List Char)) :
    stridesOf segments = (innerComponents segments).filterMap Component.step? := by
  induction segments with
  | nil => rfl
  | cons x rest ih =>
    rw [← List.singleton_append, stridesOf_append, ih]
    cases hx : isIdle x with
    | true =>
      rw [stridesOf_of_idle (by simpa using hx)]
      simp [innerComponents, hx]
    | false =>
      have hinner : innerComponents ([x] ++ rest) =
          Component.ofSegment x :: innerComponents rest := by
        simp [innerComponents, hx]
      rw [stridesOf_singleton hx, hinner]
      rw [isIdle, Bool.or_eq_false_iff, beq_eq_false_iff_ne, beq_eq_false_iff_ne] at hx
      rw [Step.ofSegment, if_neg (not_or.2 hx), Component.ofSegment]
      split <;> rfl

theorem strides_eq_filterMap (p : Path) : p.strides = p.components.filterMap Component.step? := by
  rw [strides, components]
  split
  · rename_i heq
    rw [heq]
    rfl
  · rename_i heq
    rw [heq]
    rfl
  · rename_i rest _ heq
    rw [heq]
    exact (stridesOf_append [[]] rest).trans (stridesOf_eq_filterMap rest)
  · rename_i rest heq
    rw [heq]
    exact (stridesOf_append [['.']] rest).trans (stridesOf_eq_filterMap rest)
  · rename_i heq
    rw [heq]
    exact stridesOf_eq_filterMap _

/-- Paths that agree component by component have the same steps. -/
theorem strides_of_same (h : p.same q = true) : p.strides = q.strides := by
  rw [same, beq_iff_eq] at h
  rw [strides_eq_filterMap p, strides_eq_filterMap q, h]

/-! ### Extensions -/

/-- A dot behind a name makes the name a stem. -/
theorem divideName_append_dot {stem extension : List Char} (hstem : stem ≠ [])
    (hext : '.' ∉ extension) :
    divideName (stem ++ '.' :: extension) = (stem, some extension) := by
  obtain ⟨c, r, hcr⟩ := List.exists_cons_of_ne_nil (mt List.reverse_eq_nil_iff.1 hstem)
  rw [divideName, Text.span_reverse_append stem hext, hcr]
  dsimp only
  rw [← hcr, List.reverse_reverse, List.reverse_reverse]

/-- A name either has no extension and is its own stem, or a dot stands between its stem and an
extension without dots. -/
theorem divideName_cases (name : List Char) :
    divideName name = (name, none) ∨
      ∃ stem extension, divideName name = (stem, some extension) ∧ stem ≠ [] ∧
        '.' ∉ extension ∧ name = stem ++ '.' :: extension := by
  by_cases hdot : '.' ∈ name
  · obtain ⟨stem, extension, rfl, hext⟩ := Text.exists_last hdot
    by_cases hstem : stem = []
    · rw [hstem, divideName, Text.span_reverse_append [] hext]
      exact .inl rfl
    · exact .inr ⟨stem, extension, divideName_append_dot hstem hext, hstem, hext, rfl⟩
  · rw [divideName, Text.span_reverse_of_notMem hdot]
    exact .inl rfl

/-- An extension with a dot in it is not the one that a name has. -/
theorem divideName_fst_append_ne {extension : List Char} (h : '.' ∈ extension) (name : List Char) :
    (divideName name).1 ++ '.' :: extension ≠ name := by
  intro heq
  rcases divideName_cases name with hself | ⟨stem, ext, hdivide, -, hdot, hname⟩
  · rw [hself] at heq
    have hlength := congrArg List.length heq
    simp only [List.length_append, List.length_cons] at hlength
    omega
  · rw [hdivide, hname] at heq
    have hsame := List.append_cancel_left heq
    rw [(List.cons.inj hsame).2] at h
    exact hdot h

theorem divideName_fst_subset (name : List Char) : (divideName name).1 ⊆ name := by
  rcases divideName_cases name with hself | ⟨stem, ext, hdivide, -, -, hname⟩
  · rw [hself]
    exact List.Subset.refl name
  · rw [hdivide, hname]
    exact List.subset_append_left stem _

/-- The start of segments reaches at most to the last one of them that names something. -/
theorem start_concat (init idle : List (List Char)) {last : List Char} (h : isIdle last = false) :
    ∃ rest, (start (init ++ last :: idle)).2 = rest ++ last :: idle ∧
      (start (init ++ last :: idle)).1 ++ rest = init := by
  -- a first segment that is kept as the start is not the last one that names something
  have hkept {x : List Char} {rest : List (List Char)} (hx : isIdle x = true)
      (heq : init ++ last :: idle = x :: rest) :
      ∃ r, rest = r ++ last :: idle ∧ [x] ++ r = init := by
    cases init with
    | nil =>
      obtain ⟨rfl, -⟩ := List.cons.inj heq
      rw [hx] at h
      cases h
    | cons y init =>
      obtain ⟨rfl, rfl⟩ := List.cons.inj heq
      exact ⟨init, rfl, rfl⟩
  generalize hsegments : init ++ last :: idle = segments
  unfold start
  split
  · obtain ⟨r, hr, -⟩ := hkept rfl hsegments
    simp at hr
  · exact hkept rfl hsegments
  · exact hkept rfl hsegments
  · exact ⟨init, hsegments.symm, rfl⟩

theorem lastFirst_concat (init : List (List Char)) {last : List Char} {idle : List (List Char)}
    (h : isIdle last = false) (hidle : ∀ x ∈ idle, isIdle x = true) :
    lastFirst (init ++ last :: idle) = last :: init.reverse := by
  have hdropped : idle.reverse.dropWhile isIdle = [] :=
    List.dropWhile_eq_nil_iff.2 fun x hx => hidle x (List.mem_reverse.1 hx)
  rw [lastFirst, List.reverse_append, List.reverse_cons, List.append_assoc,
    List.dropWhile_append, hdropped]
  simp only [List.isEmpty_nil, if_true, List.singleton_append]
  rw [List.dropWhile_cons_of_neg (by simp [h])]

/-- The segments of a path divided at the last one that names something. -/
theorem segments_cases (p : Path) : (∀ x ∈ p.segments, isIdle x = true) ∨
    ∃ init last idle, p.segments = init ++ last :: idle ∧ isIdle last = false ∧
      ∀ x ∈ idle, isIdle x = true := by
  have hdivided := List.takeWhile_append_dropWhile (p := isIdle) (l := p.segments.reverse)
  have hidle : ∀ x ∈ (p.segments.reverse.takeWhile isIdle).reverse, isIdle x = true := by
    intro x hx
    exact List.all_eq_true.1 List.all_takeWhile x (List.mem_reverse.1 hx)
  cases hlast : p.segments.reverse.dropWhile isIdle with
  | nil =>
    rw [hlast, List.append_nil] at hdivided
    rw [hdivided, List.reverse_reverse] at hidle
    exact .inl hidle
  | cons last before =>
    rw [hlast] at hdivided
    refine .inr ⟨before.reverse, last, _, ?_, isIdle_of_lastFirst_eq_cons hlast, hidle⟩
    have hsegments := congrArg List.reverse hdivided
    rw [List.reverse_reverse, List.reverse_append, List.reverse_cons, List.append_assoc,
      List.singleton_append] at hsegments
    exact hsegments.symm

theorem strides_of_segments {init idle : List (List Char)} {last : List Char}
    (hp : p.segments = init ++ last :: idle) (h : isIdle last = false)
    (hidle : ∀ x ∈ idle, isIdle x = true) :
    p.strides = stridesOf init ++ [Step.ofSegment last] := by
  rw [strides, hp, stridesOf_append, ← List.singleton_append, stridesOf_append,
    stridesOf_singleton h, stridesOf_of_idle hidle, List.append_nil]

/-- The name at the end of a path is its last segment that names something. -/
theorem fileName?_of_segments {init idle : List (List Char)} {last : List Char}
    (hp : p.segments = init ++ last :: idle) (h : isIdle last = false)
    (hidle : ∀ x ∈ idle, isIdle x = true) :
    p.fileName? = if last = ['.', '.'] then none else some (String.ofList last) := by
  obtain ⟨rest, hrest, -⟩ := start_concat init idle h
  rw [fileName?, hp, hrest, lastFirst_concat rest h hidle]

/-- Another extension leaves the way to the last name as it is, and stands behind the stem of that
name. -/
theorem strides_replaceExtension {init idle : List (List Char)} {last : List Char}
    {extension : String} (hp : p.segments = init ++ last :: idle) (hlast : isIdle last = false)
    (hidle : ∀ x ∈ idle, isIdle x = true) (hext : '/' ∉ extension.toList ∧ extension ≠ "") :
    ∃ step, (p.replaceExtension extension).strides = stridesOf init ++ [step] ∧
      ∀ name, step = .down name →
        name.toList = (divideName last).1 ++ '.' :: extension.toList := by
  obtain ⟨rest, hrest, hinit⟩ := start_concat init idle hlast
  have hself := strides_of_segments hp hlast hidle
  rw [replaceExtension, hp]
  dsimp only
  rw [hrest, lastFirst_concat rest hlast hidle]
  dsimp only
  split
  · rename_i hup
    refine ⟨_, hself, fun name hname => ?_⟩
    rw [hup] at hname
    cases hname
  · have hnew : isIdle ((divideName last).1 ++ '.' :: extension.toList) = false := by
      obtain ⟨c, r, hcr⟩ : ∃ c r, extension.toList = c :: r := by
        cases hcr : extension.toList with
        | nil => exact absurd (String.toList_injective hcr) hext.2
        | cons c r => exact ⟨c, r, rfl⟩
      rw [isIdle, Bool.or_eq_false_iff, beq_eq_false_iff_ne, beq_eq_false_iff_ne, hcr]
      refine ⟨by simp, fun heq => ?_⟩
      have hlength := congrArg List.length heq
      simp only [List.length_append, List.length_cons, List.length_nil] at hlength
      omega
    rw [List.reverse_reverse, hinit, strides, segments_joined, stridesOf_append,
      stridesOf_singleton hnew]
    · refine ⟨_, rfl, fun name hname => ?_⟩
      rw [Step.ofSegment] at hname
      split at hname
      · cases hname
      · split at hname
        · cases hname
        · rw [← Step.down.inj hname, String.toList_ofList]
    · simp
    · intro x hx
      rcases List.mem_append.1 hx with hx | hx
      · exact not_mem_of_mem_segments (by rw [hp]; exact List.mem_append_left _ hx)
      · obtain rfl := List.mem_singleton.1 hx
        have hclean : '/' ∉ last :=
          not_mem_of_mem_segments (by rw [hp]; exact List.mem_append_right _ (by simp))
        intro hslash
        rcases List.mem_append.1 hslash with hslash | hslash
        · exact hclean (divideName_fst_subset last hslash)
        · rcases List.mem_cons.1 hslash with hslash | hslash
          · cases hslash
          · exact hext.1 hslash

/-- What an idle segment starts with is idle. -/
theorem isIdle_of_prefix {x y : List Char} (h : isIdle y = true) (hxy : x <+: y) :
    isIdle x = true := by
  rw [isIdle, Bool.or_eq_true, beq_iff_eq, beq_iff_eq] at h ⊢
  rcases h with rfl | rfl
  · exact .inl (List.prefix_nil.1 hxy)
  · rcases List.prefix_cons_iff.1 hxy with rfl | ⟨z, rfl, hz⟩
    · exact .inl rfl
    · rw [List.prefix_nil.1 hz]
      exact .inr rfl

/-- Cutting off the old extension leaves a name with the same stem. Where something idle is behind
the name, less than the extension is cut off of it. -/
theorem segments_withoutExtension {init idle : List (List Char)} {last : List Char}
    (hp : p.segments = init ++ last :: idle) (hlast : isIdle last = false)
    (hidle : ∀ x ∈ idle, isIdle x = true) :
    ∃ name rest, p.withoutExtension.segments = init ++ name :: rest ∧ isIdle name = false ∧
      (∀ x ∈ rest, isIdle x = true) ∧ (divideName name).1 = (divideName last).1 := by
  have hname := fileName?_of_segments hp hlast hidle
  cases hext : p.extension? with
  | none =>
    have hself : p.withoutExtension = p := by
      rw [withoutExtension, hext]
      simp
    rw [hself]
    exact ⟨last, idle, hp, hlast, hidle, rfl⟩
  | some extension =>
    rw [extension?, hname] at hext
    split at hext
    · cases hext
    rename_i hdots
    rw [Option.bind_some, String.toList_ofList, Option.map_eq_some_iff] at hext
    obtain ⟨ext, hdivide, rfl⟩ := hext
    rcases divideName_cases last with hself | ⟨stem, ext', hparts, hstem, hdot, rfl⟩
    · rw [hself] at hdivide
      cases hdivide
    rw [hparts] at hdivide ⊢
    obtain rfl : ext' = ext := Option.some.inj hdivide
    have hsegments : p.segments = init ++ (stem ++ ['.'] ++ ext') :: idle := by
      rw [hp, List.append_assoc, List.singleton_append]
    have htext : p.text.toList = Text.joined '/' (init ++ (stem ++ ['.'] ++ ext') :: idle) := by
      rw [← hsegments, segments, Text.joined_fields]
    have hext : p.extension? = some (String.ofList ext') := by
      rw [extension?, hname, if_neg hdots, Option.bind_some, String.toList_ofList, hparts]
      rfl
    have hclean : ∀ z ∈ init ++ (stem ++ ['.'] ++ ext') :: idle, '/' ∉ z := by
      rw [← hsegments]
      exact fun z hz => not_mem_of_mem_segments hz
    obtain ⟨g, gs, hcut, hg, hgs⟩ := Text.fields_cut '/' hclean
    refine ⟨stem ++ '.' :: g, gs, ?_, ?_, ?_, ?_⟩
    · rw [withoutExtension, hext, Option.map_some, Option.getD_some, String.length_ofList, segments,
        String.toList_ofList, htext, hcut, List.append_assoc stem, List.singleton_append]
    · obtain ⟨c, r, rfl⟩ := List.exists_cons_of_ne_nil hstem
      rw [isIdle, Bool.or_eq_false_iff, beq_eq_false_iff_ne, beq_eq_false_iff_ne]
      exact ⟨by simp, by simp⟩
    · intro x hx
      obtain ⟨y, hy, hxy⟩ := hgs x hx
      exact isIdle_of_prefix (hidle y hy) hxy
    · rw [divideName_append_dot hstem fun hmem => hdot (hg.subset hmem)]

/-- A path without a name at its end keeps its extension. -/
theorem withExtension_of_fileName?_eq_none (h : p.fileName? = none) (extension : String) :
    p.withExtension extension = p := by
  have hself : p.withoutExtension = p := by
    rw [withoutExtension, extension?, h]
    simp
  rw [withExtension, hself, replaceExtension]
  rw [fileName?] at h
  dsimp only
  split
  · rfl
  · rename_i last before hlast
    rw [hlast] at h
    dsimp only at h
    split at h
    · rename_i hdots
      rw [if_pos hdots]
    · cases h

end Path

/-! ### The file beside a place -/

namespace Store

/-- The file beside a place is in the same directory, if a name leads to it: the name of the place
with another extension. -/
theorem strides_temporary {p : Path} {other : String}
    (h : (temporary p).lastStep = .down other) :
    ∃ as name, p.strides = as ++ [.down name] ∧ (temporary p).strides = as ++ [.down other] ∧
      other.toList = (Path.divideName name.toList).1 ++ ".json.tmp".toList := by
  obtain ⟨as, has⟩ := Path.strides_of_lastStep h Path.Step.noConfusion
  cases hfile : p.fileName? with
  | none =>
    -- the file beside the place would be the place, which has no name at its end
    rw [temporary, Path.withExtension_of_fileName?_eq_none hfile] at has
    rw [Path.fileName?_eq, has, List.getLast?_concat] at hfile
    cases hfile
  | some name =>
    rcases p.segments_cases with hidle | ⟨init, last, idle, hsegments, hlast, hidle⟩
    · rw [Path.fileName?_eq, Path.strides, Path.stridesOf_of_idle hidle] at hfile
      cases hfile
    · have hname := Path.fileName?_of_segments hsegments hlast hidle
      rw [hfile] at hname
      split at hname
      · cases hname
      rename_i hdots
      obtain rfl := Option.some.inj hname
      obtain ⟨cut, rest, hcutSegments, hcut, hrest, hstem⟩ :=
        Path.segments_withoutExtension hsegments hlast hidle
      have hext : '/' ∉ "json.tmp".toList ∧ "json.tmp" ≠ "" := by decide
      obtain ⟨step, hstep, hbeside⟩ := Path.strides_replaceExtension hcutSegments hcut hrest hext
      obtain ⟨-, hsame⟩ := List.append_inj' (has.symm.trans hstep) rfl
      have hother := hbeside other (List.singleton_inj.1 hsame).symm
      rw [hstem] at hother
      refine ⟨Path.stridesOf init, String.ofList last, ?_, ?_, ?_⟩
      · have hmoves := hlast
        rw [Path.isIdle, Bool.or_eq_false_iff, beq_eq_false_iff_ne,
          beq_eq_false_iff_ne] at hmoves
        rw [Path.strides_of_segments hsegments hlast hidle, Path.Step.ofSegment,
          if_neg (not_or.2 hmoves), if_neg hdots]
      · rw [temporary, Path.withExtension, hstep, ← hsame]
      · have hlist : (String.ofList last).toList = last := String.toList_ofList
        rw [hlist]
        exact hother

/-- The file beside a place is not the place itself, if a name leads to it. -/
theorem location_temporary_ne {p : Path} {other : String}
    (h : (temporary p).lastStep = .down other) : (temporary p).location ≠ p.location := by
  obtain ⟨as, name, hplace, hbeside, hother⟩ := strides_temporary h
  rw [Path.location_of_strides hplace, Path.location_of_strides hbeside]
  intro heq
  obtain rfl := List.singleton_inj.1 (List.append_inj' heq rfl).2
  exact Path.divideName_fst_append_ne (by decide) other.toList hother.symm

end Store

end ResourceCompiler
