import ResourceCompiler.Proofs.Independence
import ResourceCompiler.Proofs.Source.Strings

/-!
# Files that are images

Images are found by the endings of their names and are read by their extensions. Both agree but in
two cases: an ending with a letter in upper case is an extension of images but is not found, and a
name that is nothing but an ending is found but has no extension. What stands behind the last at
sign of a name is its scale, in which `vector` may be written for any raster format.

* `selects_images_iff`, `ofExtension?_ne_none_iff`: the names that are found and those that are
  read.
* `selects_images_extension`: where both differ.
* `divideAtScale_append`, `scaleOf_eq_ok_iff`, `imageOf_vector_iff`: the scale of a name.
* `mem_build_images_iff`: the variants that files declare.
* `build_images_vector_iff`: the variants that are vector drawings.
-/

namespace ResourceCompiler.Source

open ResourceCompiler.Path OrderedMap

/-! ### Endings and extensions -/

/-- The extensions of image files, in lower case. -/
def imageExtensions : List (List Char) := ["png".toList, "jpg".toList, "jpeg".toList, "svg".toList]

theorem imageEndings_eq : imageEndings = imageExtensions.map ('.' :: ·) := by decide

theorem plain_of_mem_imageExtensions {w : List Char} (h : w ∈ imageExtensions) :
    '.' ∉ w ∧ w.map Char.toLower = w ∧ w.any Char.isUpper = false := by
  have hall : imageExtensions.all (fun w => !w.contains '.' && w.map Char.toLower == w &&
      !w.any Char.isUpper) = true := by decide
  have hw := List.all_eq_true.1 hall w h
  simpa [and_assoc] using hw

theorem map_toLower_of_any_isUpper {cs : List Char} (h : cs.any Char.isUpper = false) :
    cs.map Char.toLower = cs := by
  have hself : ∀ c ∈ cs, c.toLower = c := by
    intro c hc
    have hupper : c.isUpper = false := by
      simpa using List.any_eq_false.1 h c hc
    exact dif_neg (of_decide_eq_false hupper)
  rw [List.map_congr_left hself, List.map_id']

theorem ofExtension?_ne_none_iff (s : String) :
    ImageFormat.ofExtension? s ≠ none ↔ s.toList.map Char.toLower ∈ imageExtensions := by
  rw [ImageFormat.ofExtension?]
  generalize s.toList.map Char.toLower = low
  have hword (f : ImageFormat) : (f.text == String.ofList low) = true ↔ f.text.toList = low := by
    rw [beq_iff_eq, ← String.toList_inj, String.toList_ofList]
  have hall : ∀ f ∈ ImageFormat.all, f.text.toList ∈ imageExtensions := by decide
  by_cases hjpeg : low = "jpeg".toList
  · rw [if_pos hjpeg, hjpeg]
    exact iff_of_true (Option.some_ne_none _) (by decide)
  · rw [if_neg hjpeg, ImageFormat.ofText?, wordOfText?, Ne, List.find?_eq_none]
    constructor
    · intro h
      obtain ⟨f, hf, htext⟩ : ∃ f ∈ ImageFormat.all, f.text.toList = low := by
        simpa [hword] using h
      exact htext ▸ hall f hf
    · intro hlow h
      have hnone (f : ImageFormat) (hf : f ∈ ImageFormat.all) : low ≠ f.text.toList :=
        fun heq => h f hf ((hword f).2 heq.symm)
      rcases List.mem_cons.1 hlow with heq | hlow
      · exact hnone .png (by decide) heq
      rcases List.mem_cons.1 hlow with heq | hlow
      · exact hnone .jpg (by decide) heq
      rcases List.mem_cons.1 hlow with heq | hlow
      · exact hjpeg heq
      · exact hnone .svg (by decide) (List.mem_singleton.1 hlow)

/-- The images that are found are those whose names have one of the endings. -/
theorem selects_images_iff {directories : List String} {name : String} :
    selects .images (("images" :: directories ++ [name]).map String.toList) = true ↔
      ∃ w ∈ imageExtensions, '.' :: w <:+ name.toList := by
  have hlast : (("images" :: directories ++ [name]).map String.toList).getLast? =
      some name.toList := by
    rw [List.map_append, List.map_singleton, List.getLast?_concat]
  have hlength : 1 < (("images" :: directories ++ [name]).map String.toList).length := by
    simp
  have hhead : (("images" :: directories ++ [name]).map String.toList).head? =
      some "images".toList := rfl
  rw [selects, hlast]
  dsimp only
  rw [hhead, beq_self_eq_true, decide_eq_true hlength, Bool.true_and, Bool.true_and,
    imageEndings_eq, List.any_map, List.any_eq_true]
  simp only [Function.comp_apply, List.isSuffixOf_iff_suffix]

/-! ### What a name tells -/

/-- What the name of a file tells, if its extension is one of images. -/
theorem imageOf_of_extension {p : Path} {format : ImageFormat}
    (h : ImageFormat.ofExtension? (p.extension?.getD "") = some format) :
    imageOf p = do
      let (name, scale) ← scaleOf format (p.stem?.getD "")
      let key ← (Key.ofText? name).mapError .invalid
      return (key, scale, format) := by
  unfold imageOf
  simp only [h]

theorem scaleOf_ne_unsupported (format : ImageFormat) (stem extension : String) :
    scaleOf format stem ≠ .error (.unsupportedExtension extension) := by
  unfold scaleOf
  split
  · rename_i name scale _
    split
    · exact nofun
    · cases Scale.ofText? (String.ofList scale) with
      | error e => exact nofun
      | ok s => exact nofun
  · exact nofun

/-- A file is refused for its extension exactly if this is none of images. -/
theorem imageOf_eq_unsupported_iff (p : Path) :
    imageOf p = .error (.unsupportedExtension (p.extension?.getD "")) ↔
      ImageFormat.ofExtension? (p.extension?.getD "") = none := by
  constructor
  · intro h
    cases hformat : ImageFormat.ofExtension? (p.extension?.getD "") with
    | none => rfl
    | some format =>
      rw [imageOf_of_extension hformat] at h
      cases hscale : scaleOf format (p.stem?.getD "") with
      | error f =>
        rw [hscale] at h
        cases h
        exact absurd hscale (scaleOf_ne_unsupported format _ _)
      | ok named =>
        rw [hscale] at h
        have hkey : ((Key.ofText? named.1).mapError Fault.invalid >>= fun key =>
            Except.ok (key, named.2, format)) =
              .error (.unsupportedExtension (p.extension?.getD "")) := h
        cases hof : Key.ofText? named.1 with
        | error e =>
          rw [hof] at hkey
          cases hkey
        | ok key =>
          rw [hof] at hkey
          cases hkey
  · intro h
    unfold imageOf
    simp only [h]
    rfl

theorem imageOf_eq_ok_iff {p : Path} {key : Key} {scale : Scale} {format : ImageFormat} :
    imageOf p = .ok (key, scale, format) ↔
      ImageFormat.ofExtension? (p.extension?.getD "") = some format ∧
        scaleOf format (p.stem?.getD "") = .ok (key.text, scale) := by
  constructor
  · intro h
    cases hformat : ImageFormat.ofExtension? (p.extension?.getD "") with
    | none =>
      rw [(imageOf_eq_unsupported_iff p).2 hformat] at h
      cases h
    | some format' =>
      rw [imageOf_of_extension hformat] at h
      obtain ⟨⟨name, scale'⟩, hscale, h⟩ := bind_eq_ok h
      obtain ⟨key', hkey, h⟩ := bind_eq_ok h
      cases h
      rw [Key.ofText?_eq_ok_iff.1 (mapError_eq_ok_iff.1 hkey)]
      exact ⟨rfl, hscale⟩
  · rintro ⟨hformat, hscale⟩
    rw [imageOf_of_extension hformat, hscale]
    show (Key.ofText? key.text).mapError Fault.invalid >>= _ = _
    rw [Key.ofText?_text]
    rfl

/-! ### Where both differ -/

/-- The extension in a name, empty if there is none. -/
def nameExtension (name : List Char) : List Char := (divideName name).2.getD []

/-- A name with an ending either is the ending, or has the extension in it. -/
theorem nameExtension_of_suffix {w name : List Char} (hw : w ∈ imageExtensions)
    (h : '.' :: w <:+ name) : name ∈ imageEndings ∨ nameExtension name = w := by
  obtain ⟨stem, rfl⟩ := h
  by_cases hstem : stem = []
  · subst hstem
    rw [List.nil_append, imageEndings_eq]
    exact .inl (List.mem_map_of_mem hw)
  · rw [nameExtension, divideName_append_dot hstem (plain_of_mem_imageExtensions hw).1]
    exact .inr rfl

/-- A name that is nothing but an ending has no extension. -/
theorem nameExtension_of_mem_imageEndings {e : List Char} (h : e ∈ imageEndings) :
    nameExtension e = [] := by
  have hall : imageEndings.all (fun e => nameExtension e == []) = true := by decide
  exact beq_iff_eq.1 (List.all_eq_true.1 hall e h)

theorem found_and_unread_iff (name : List Char) :
    ((∃ w ∈ imageExtensions, '.' :: w <:+ name) ∧
      (nameExtension name).map Char.toLower ∉ imageExtensions) ↔ name ∈ imageEndings := by
  constructor
  · rintro ⟨⟨w, hw, hsuffix⟩, hunread⟩
    refine (nameExtension_of_suffix hw hsuffix).resolve_right fun hextension => ?_
    rw [hextension, (plain_of_mem_imageExtensions hw).2.1] at hunread
    exact hunread hw
  · intro h
    rw [nameExtension_of_mem_imageEndings h]
    rw [imageEndings_eq, List.mem_map] at h
    obtain ⟨w, hw, rfl⟩ := h
    exact ⟨⟨w, hw, List.suffix_rfl⟩, by decide⟩

theorem read_and_unfound_iff (name : List Char) :
    ((¬ ∃ w ∈ imageExtensions, '.' :: w <:+ name) ∧
      (nameExtension name).map Char.toLower ∈ imageExtensions) ↔
      (nameExtension name).map Char.toLower ∈ imageExtensions ∧
        (nameExtension name).any Char.isUpper = true := by
  rw [and_comm]
  refine and_congr_right fun hread => ?_
  constructor
  · intro hunfound
    cases hupper : (nameExtension name).any Char.isUpper with
    | true => rfl
    | false =>
      rw [map_toLower_of_any_isUpper hupper] at hread
      refine absurd ⟨_, hread, ?_⟩ hunfound
      rcases divideName_cases name with hnone | ⟨stem, w, hdivide, -, -, hname⟩
      · rw [nameExtension, hnone] at hread
        have hnil : [] ∉ imageExtensions := by decide
        exact absurd hread hnil
      · rw [nameExtension, hdivide, Option.getD_some]
        exact ⟨stem, hname.symm⟩
  · rintro hupper ⟨w, hw, hsuffix⟩
    rcases nameExtension_of_suffix hw hsuffix with hending | hextension
    · rw [nameExtension_of_mem_imageEndings hending] at hupper
      cases hupper
    · rw [hextension, (plain_of_mem_imageExtensions hw).2.2] at hupper
      cases hupper

/-- The extension of the path of a file is that of its name. -/
theorem extension?_pathBelow (s : SourceSet) {l : Location} {name : String}
    (h : ∀ n ∈ l ++ [name], IsName n) :
    ((pathBelow s (l ++ [name])).extension?.getD "").toList = nameExtension name.toList := by
  have hname : (pathBelow s (l ++ [name])).fileName? = some name := by
    rw [pathBelow, fileName?_eq, strides_join _ (isAbsolute_intercalate h),
      strides_intercalate h, List.map_append, List.map_singleton, ← List.append_assoc,
      List.getLast?_concat]
  rw [extension?, hname, Option.bind_some, nameExtension]
  cases (divideName name.toList).2 with
  | none => rfl
  | some w => exact String.toList_ofList

/-- **Finding and reading images differ in two cases.** A file below `images` is found and then
refused for its extension exactly if its name is nothing but an ending; a file that would be read is
not found exactly if its extension has a letter in upper case. -/
theorem selects_images_extension (s : SourceSet) {directories : List String} {name : String}
    (hdirectories : ∀ n ∈ directories, IsName n) (hname : IsName name) :
    let l := "images" :: directories ++ [name]
    let p := pathBelow s l
    let extension := p.extension?.getD ""
    (selects .images (l.map String.toList) = true ∧
        ImageFormat.ofExtension? extension = none ↔ name.toList ∈ imageEndings) ∧
      (selects .images (l.map String.toList) = false ∧
          ImageFormat.ofExtension? extension ≠ none ↔
        ImageFormat.ofExtension? extension ≠ none ∧ extension.toList.any Char.isUpper = true) ∧
      (imageOf p = .error (.unsupportedExtension extension) ↔
        ImageFormat.ofExtension? extension = none) := by
  intro l p extension
  have hnames : ∀ n ∈ "images" :: directories ++ [name], IsName n := by
    rw [List.cons_append, List.forall_mem_cons, List.forall_mem_append, List.forall_mem_singleton]
    exact ⟨by decide, hdirectories, hname⟩
  have hextension : extension.toList = nameExtension name.toList := extension?_pathBelow s hnames
  have hread := ofExtension?_ne_none_iff extension
  rw [hextension] at hread
  refine ⟨?_, ?_, imageOf_eq_unsupported_iff p⟩
  · rw [selects_images_iff, ← found_and_unread_iff, ← hread, not_not]
  · rw [← Bool.not_eq_true, selects_images_iff, hextension, hread]
    exact read_and_unfound_iff name.toList

/-- A file with an extension in upper case would be read, and is not found. -/
theorem selects_images_extension_upper :
    IsName "LOGO.PNG" ∧
      selects .images (["images", "LOGO.PNG"].map String.toList) = false ∧
      ImageFormat.ofExtension? (((pathBelow ⟨⟨"lighthouse", by decide⟩, ⟨"res"⟩⟩
        ["images", "LOGO.PNG"]).extension?).getD "") ≠ none := by
  have hname : IsName "LOGO.PNG" := by decide
  have hformat : ImageFormat.ofExtension? (((pathBelow ⟨⟨"lighthouse", by decide⟩, ⟨"res"⟩⟩
      ["images", "LOGO.PNG"]).extension?).getD "") ≠ none := by decide
  exact ⟨hname, (selects_images_extension ⟨⟨"lighthouse", by decide⟩, ⟨"res"⟩⟩
    (List.forall_mem_nil _) hname).2.1.2 ⟨hformat, by decide⟩⟩

/-! ### Scales -/

variable {cs name scale : List Char}

theorem divideAtScale_of_notMem (h : '@' ∉ cs) : divideAtScale cs = none := by
  rw [divideAtScale, Text.span_reverse_of_notMem h]

/-- A text is divided at its last at sign. -/
theorem divideAtScale_append (name : List Char) (h : '@' ∉ scale) :
    divideAtScale (name ++ '@' :: scale) = some (name, scale) := by
  rw [divideAtScale, Text.span_reverse_append name h]
  dsimp only
  rw [List.reverse_reverse, List.reverse_reverse]

/-- Every text with an at sign has a last one. -/
theorem divideAtScale_cases (cs : List Char) :
    divideAtScale cs = none ∧ '@' ∉ cs ∨
      ∃ name scale, divideAtScale cs = some (name, scale) ∧ cs = name ++ '@' :: scale ∧
        '@' ∉ scale := by
  by_cases hmem : '@' ∈ cs
  · obtain ⟨name, scale, rfl, hscale⟩ := Text.exists_last hmem
    exact .inr ⟨name, scale, divideAtScale_append name hscale, rfl, hscale⟩
  · exact .inl ⟨divideAtScale_of_notMem hmem, hmem⟩

/-- The scale in the stem of a name: what stands behind its last at sign, which only the names of
raster images have, or the plain scale of the format. -/
theorem scaleOf_eq_ok_iff {format : ImageFormat} {stem named : String} {scale : Scale} :
    scaleOf format stem = .ok (named, scale) ↔
      '@' ∉ stem.toList ∧ named = stem ∧ scale = (if format = .svg then .vector else .unmarked) ∨
      format ≠ .svg ∧ ∃ text, stem.toList = named.toList ++ '@' :: text ∧ '@' ∉ text ∧
        Scale.ofText? (String.ofList text) = .ok scale := by
  rw [scaleOf]
  constructor
  · intro h
    rcases divideAtScale_cases stem.toList with ⟨hnone, hmem⟩ | ⟨name, text, hsome, hstem, htext⟩
    · rw [hnone] at h
      cases h
      exact .inl ⟨hmem, rfl, rfl⟩
    · rw [hsome] at h
      dsimp only at h
      by_cases hsvg : format = .svg
      · rw [if_pos hsvg] at h
        cases h
      · rw [if_neg hsvg, mapError_eq_ok_iff] at h
        cases hscale : Scale.ofText? (String.ofList text) with
        | error e =>
          rw [hscale] at h
          cases h
        | ok s =>
          rw [hscale] at h
          cases h
          rw [String.toList_ofList]
          exact .inr ⟨hsvg, text, hstem, htext, hscale⟩
  · rintro (⟨hmem, rfl, rfl⟩ | ⟨hsvg, text, hstem, htext, hscale⟩)
    · rw [divideAtScale_of_notMem hmem]
    · rw [hstem, divideAtScale_append _ htext]
      dsimp only
      rw [if_neg hsvg, hscale, String.ofList_toList]
      rfl

theorem divideAtScale_vector (name : String) :
    divideAtScale (name ++ "@vector").toList = some (name.toList, "vector".toList) := by
  rw [String.toList_append]
  exact divideAtScale_append name.toList (by decide)

theorem scaleOf_vector_iff {format : ImageFormat} {stem named : String} {scale : Scale}
    (h : scaleOf format stem = .ok (named, scale)) :
    scale = .vector ↔ format = .svg ∨ ∃ name, stem = name ++ "@vector" := by
  rcases scaleOf_eq_ok_iff.1 h with ⟨hmem, -, rfl⟩ | ⟨hsvg, text, hstem, htext, hscale⟩
  · have hunmarked : ¬ ∃ name, stem = name ++ "@vector" := by
      rintro ⟨name, rfl⟩
      rw [String.toList_append] at hmem
      exact hmem (List.mem_append_right _ List.mem_cons_self)
    rw [or_iff_left hunmarked]
    by_cases hsvg : format = .svg
    · exact iff_of_true (if_pos hsvg) hsvg
    · rw [if_neg hsvg]
      exact iff_of_false nofun hsvg
  · rw [or_iff_right hsvg]
    constructor
    · rintro rfl
      have hvector : String.ofList text = "vector" := (Scale.text_of_ofText?_eq_ok hscale).symm
      have htext' : text = "vector".toList := by rw [← hvector, String.toList_ofList]
      refine ⟨named, String.toList_injective ?_⟩
      rw [hstem, htext', String.toList_append]
      rfl
    · rintro ⟨name, rfl⟩
      have hdivide := divideAtScale_append named.toList htext
      rw [← hstem, divideAtScale_vector] at hdivide
      rw [← (Prod.mk.inj (Option.some.inj hdivide)).2, String.ofList_toList] at hscale
      exact (Except.ok.inj hscale).symm

/-- Whether the name of a file marks it as a vector drawing, whatever its extension is. -/
def IsMarkedVector (p : Path) : Prop := ∃ name, p.stem? = some (name ++ "@vector")

theorem imageOf_vector_iff {p : Path} {key : Key} {scale : Scale} {format : ImageFormat}
    (h : imageOf p = .ok (key, scale, format)) :
    scale = .vector ↔ format = .svg ∨ IsMarkedVector p := by
  rw [scaleOf_vector_iff (imageOf_eq_ok_iff.1 h).2, IsMarkedVector]
  cases p.stem? with
  | some stem => simp only [Option.getD_some, Option.some.injEq]
  | none =>
    refine or_congr_right (iff_of_false ?_ ?_)
    · rintro ⟨name, hname⟩
      have hempty := String.append_eq_empty_iff.1 hname.symm
      exact absurd hempty.2 (by decide)
    · rintro ⟨name, hname⟩
      cases hname

/-- The name of a drawing in the format of drawings carries no mark. -/
theorem not_isMarkedVector_of_svg {p : Path} {key : Key} {scale : Scale}
    (h : imageOf p = .ok (key, scale, .svg)) : ¬ IsMarkedVector p := by
  rintro ⟨name, hname⟩
  have hscale := (imageOf_eq_ok_iff.1 h).2
  rw [hname, Option.getD_some, scaleOf, divideAtScale_vector] at hscale
  cases hscale

/-! ### What is built -/

section

variable {strict : Bool} {sourceSet : SourceSetName} {root : Path} {files : List Path}
  {t : FileTree} {es : List (Entry .images)}

/-- Each file of images without a fault declares one variant. -/
theorem forall₂_of_imageDeclarations {ds : List (Declaration Scale ImageFile)}
    (h : imageDeclarations sourceSet files = ds.map .ok) :
    List.Forall₂ (fun p d => imageOf p = .ok (d.key, d.qualifier, d.value.format) ∧
      d.value.path = p) files ds := by
  rw [imageDeclarations, ← List.forall₂_eq_eq_eq, List.forall₂_map_left_iff,
    List.forall₂_map_right_iff] at h
  refine h.imp fun p d hd => ?_
  split at hd
  · rename_i key scale format himage
    rw [← Except.ok.inj hd]
    exact ⟨himage, rfl⟩
  · cases hd

/-- Images are only built if the name of each file tells one. -/
theorem exists_imageOf_of_build (h : build strict sourceSet root files t .images = .ok es)
    {p : Path} (hp : p ∈ files) :
    ∃ key scale format, imageOf p = .ok (key, scale, format) := by
  obtain ⟨m, hm, -⟩ := bind_eq_ok h
  obtain ⟨ds, hds, -, -⟩ := lists_of_gather hm
  obtain ⟨d, -, hd, -⟩ := exists_of_mem_right (forall₂_of_imageDeclarations hds).flip hp
  exact ⟨d.key, d.qualifier, d.value.format, hd⟩

/-- **The variants that are built are those that the names of the files tell.** -/
theorem mem_build_images_iff (h : build strict sourceSet root files t .images = .ok es) (key : Key)
    (scale : Scale) (file : ImageFile) :
    (∃ e ∈ es, e.key = key ∧ (scale, file) ∈ OrderedMap.entries e.value) ↔
      file.path ∈ files ∧ imageOf file.path = .ok (key, scale, file.format) := by
  obtain ⟨m, hm, h⟩ := bind_eq_ok h
  obtain ⟨ds, hds, -, hlists⟩ := lists_of_gather hm
  have hnamed := forall₂_of_imageDeclarations hds
  have hes : es = m.entries.map fun e => ⟨e.1, withoutPaths e.2⟩ := by
    rw [← Except.ok.inj h]
    exact congrFun List.filterMap_eq_map m.entries
  constructor
  · rintro ⟨e, he, rfl, hvariant⟩
    rw [hes, List.mem_map] at he
    obtain ⟨⟨key, values⟩, hentry, rfl⟩ := he
    obtain ⟨⟨q, v, path⟩, hvalue, hpair⟩ := List.mem_map.1 hvariant
    rw [hlists.entries_eq key values (mem_entries_iff.1 hentry)] at hvalue
    obtain ⟨d, hd, hdeclared⟩ := List.mem_map.1 hvalue
    obtain ⟨hmem, hkey⟩ := List.mem_filter.1 hd
    obtain rfl : d.key = key := of_decide_eq_true hkey
    cases hdeclared
    cases hpair
    obtain ⟨p, hp, himage, hpath⟩ := exists_of_mem_right hnamed hmem
    rw [hpath]
    exact ⟨hp, himage⟩
  · rintro ⟨hmem, himage⟩
    obtain ⟨d, hd, hdeclared, hpath⟩ := exists_of_mem_right hnamed.flip hmem
    obtain ⟨rfl, rfl, hformat⟩ : d.key = key ∧ d.qualifier = scale ∧ d.value.format = file.format :=
      by simpa [eq_comm] using himage.symm.trans hdeclared
    obtain ⟨⟨key, values⟩, hentry, hkey⟩ := List.mem_map.1 (hlists.mem_keys_iff.2 ⟨d, hd, rfl⟩)
    obtain rfl : key = d.key := hkey
    refine ⟨⟨d.key, withoutPaths values⟩, ?_, rfl, ?_⟩
    · rw [hes]
      exact List.mem_map.2 ⟨_, hentry, rfl⟩
    · have hvalue : (d.qualifier, d.value, d.path) ∈ values.entries := by
        rw [hlists.entries_eq _ _ (mem_entries_iff.1 hentry)]
        exact List.mem_map.2 ⟨d, List.mem_filter.2 ⟨hd, decide_eq_true rfl⟩, rfl⟩
      have hfile : d.value = file := by
        cases hleft : d.value
        cases file
        rw [hleft] at hpath hformat
        exact congrArg₂ ImageFile.mk hpath hformat
      exact List.mem_map.2 ⟨_, hvalue, by rw [hfile]⟩

/-- **A variant is a vector drawing exactly if its format is one of drawings or its name says so.**
Every drawing has that format unless a file of another format is marked as a drawing by name. -/
theorem build_images_vector_iff (h : build strict sourceSet root files t .images = .ok es) :
    (∀ e ∈ es, ∀ v ∈ OrderedMap.entries e.value,
      v.1 = .vector ↔ v.2.format = .svg ∨ IsMarkedVector v.2.path) ∧
    ((∀ e ∈ es, ∀ v ∈ OrderedMap.entries e.value, v.1 = .vector ↔ v.2.format = .svg) ↔
      ∀ p ∈ files, ¬ IsMarkedVector p) := by
  have hvariant : ∀ e ∈ es, ∀ v ∈ OrderedMap.entries e.value,
      v.2.path ∈ files ∧ imageOf v.2.path = .ok (e.key, v.1, v.2.format) := fun e he v hv =>
    (mem_build_images_iff h e.key v.1 v.2).1 ⟨e, he, rfl, hv⟩
  refine ⟨fun e he v hv => imageOf_vector_iff (hvariant e he v hv).2, ?_, ?_⟩
  · intro hall p hp hmarked
    obtain ⟨key, scale, format, himage⟩ := exists_imageOf_of_build h hp
    obtain ⟨e, he, -, hv⟩ := (mem_build_images_iff h key scale ⟨p, format⟩).2 ⟨hp, himage⟩
    have hsvg : format = .svg := (hall e he _ hv).1 ((imageOf_vector_iff himage).2 (.inr hmarked))
    subst hsvg
    exact not_isMarkedVector_of_svg himage hmarked
  · intro hnone e he v hv
    obtain ⟨hfile, himage⟩ := hvariant e he v hv
    rw [imageOf_vector_iff himage, or_iff_left (hnone _ hfile)]

end

/-- A drawing that is one by its format beside one that is only by its name. -/
theorem build_images_vector_iff_buoy :
    ∃ es, build false ⟨"buoy", by decide⟩ ⟨"res"⟩
        [⟨"res/images/anchor.svg"⟩, ⟨"res/images/buoy@vector.png"⟩] .empty .images = .ok es ∧
      ¬ ∀ e ∈ es, ∀ v ∈ OrderedMap.entries e.value, v.1 = .vector ↔ v.2.format = .svg := by
  obtain ⟨es, hes⟩ : ∃ es, build false ⟨"buoy", by decide⟩ ⟨"res"⟩
      [⟨"res/images/anchor.svg"⟩, ⟨"res/images/buoy@vector.png"⟩] .empty .images = .ok es :=
    exists_of_isOk (by decide)
  have hmarked : IsMarkedVector ⟨"res/images/buoy@vector.png"⟩ := ⟨"buoy", by decide⟩
  refine ⟨es, hes, fun hall => ?_⟩
  exact (build_images_vector_iff hes).2.1 hall _ (List.mem_cons_of_mem _ List.mem_cons_self)
    hmarked

end ResourceCompiler.Source
