import ResourceCompiler.Proofs.Native.Images
import ResourceCompiler.Proofs.Source.ImageNames

/-!
# Names of generated images read back

The name that a variant of an image has in an image folder or an asset catalog tells its key, its
scale and its format, in the way in which the names of resource files tell them. This needs that
drawings are in the format of drawings, since the mark of a scale is left out for them.

* `scaleOf_fileSuffix`: the scale in the stem of a name.
* `imageOf_div_imageFileName`: a name in any directory.
* `exists_imageTarget_eq`: the last name on the way to a variant.
* `imageOf_imageFileName`: names, and the places where the generators of platforms put variants.
-/

namespace ResourceCompiler.Native

open ResourceCompiler.Path Source

theorem at_notMem_text (s : Scale) : '@' ∉ s.text.toList := fun hmem =>
  absurd (Scale.of_mem_text hmem) (by decide)

theorem at_notMem_key (key : Key) : '@' ∉ key.text.toList := fun hmem =>
  absurd (key.isIdentifierChar_of_mem hmem) (by decide)

/-- The mark of a scale behind a key tells the scale, if drawings and the format of drawings come
together. -/
theorem scaleOf_fileSuffix (key : Key) {scale : Scale} {format : ImageFormat}
    (h : scale = .vector ↔ format = .svg) :
    scaleOf format (key.text ++ scale.fileSuffix) = .ok (key.text, scale) := by
  rw [scaleOf_eq_ok_iff, Scale.fileSuffix]
  split
  · rename_i hplain
    rw [String.append_empty]
    refine .inl ⟨at_notMem_key key, rfl, ?_⟩
    by_cases hsvg : format = .svg
    · rw [if_pos hsvg, h.2 hsvg]
    · rw [if_neg hsvg, hplain.resolve_left (mt h.1 hsvg)]
  · rename_i hmarked
    have hsvg : format ≠ .svg := fun hsvg => hmarked (.inl (h.2 hsvg))
    refine .inr ⟨hsvg, scale.text.toList, ?_, at_notMem_text scale, ?_⟩
    · rw [String.toList_append, String.toList_append]
      rfl
    · rw [String.ofList_toList, Scale.ofText?_text]

variable {platform : Platform} {key : Key} {v : Scale × ImageFile} {names : List String}

/-- The name of a variant is divided between the mark of its scale and its format. -/
theorem divideName_imageFileName (key : Key) (v : Scale × ImageFile) :
    divideName (Apple.imageFileName key v).toList =
      ((key.text ++ v.1.fileSuffix).toList, some v.2.format.text.toList) := by
  have hdot : ∀ f : ImageFormat, '.' ∉ f.text.toList := by
    intro f
    cases f <;> decide
  have hstem : key.text.toList ++ v.1.fileSuffix.toList ≠ [] := fun hnil =>
    isIdentifier_ne_nil key.isIdentifier (List.append_eq_nil_iff.1 hnil).1
  rw [toList_imageFileName, ← List.append_assoc, divideName_append_dot hstem (hdot v.2.format),
    String.toList_append]

theorem imageOf_of_fileName {p : Path} (hname : p.fileName? = some (Apple.imageFileName key v))
    (h : v.1 = .vector ↔ v.2.format = .svg) : imageOf p = .ok (key, v.1, v.2.format) := by
  have hextension : p.extension? = some v.2.format.text := by
    rw [extension?, hname, Option.bind_some, divideName_imageFileName, Option.map_some,
      String.ofList_toList]
  have hstem : p.stem? = some (key.text ++ v.1.fileSuffix) := by
    rw [stem?, hname, Option.map_some, divideName_imageFileName, String.ofList_toList]
  rw [imageOf_eq_ok_iff, hextension, hstem, Option.getD_some, Option.getD_some]
  exact ⟨ImageFormat.ofExtension?_text v.2.format, scaleOf_fileSuffix key h⟩

/-- The last name on the way to a variant is that of its file, but for Android. -/
theorem exists_imageNames_eq (hplatform : platform ≠ .android)
    (h : imageNames platform key v = some names) :
    ∃ directories, names = directories ++ [Apple.imageFileName key v] := by
  cases platform with
  | common => cases h
  | android => exact absurd rfl hplatform
  | apple => exact ⟨[_, _], (Option.some.inj h).symm⟩
  | jvm => exact ⟨[_], (Option.some.inj h).symm⟩
  | js => exact ⟨[_], (Option.some.inj h).symm⟩

theorem fileName?_div (directory : Path) {name : String} (h : IsName name) :
    (directory / name).fileName? = some name := by
  rw [fileName?_eq, strides_div directory h, List.getLast?_concat]

theorem isName_imageFileName (key : Key) (v : Scale × ImageFile) :
    IsName (Apple.imageFileName key v) := by
  have hnames : imageNames .jvm key v = some ["images", Apple.imageFileName key v] := rfl
  exact isName_of_mem_imageNames hnames _ (List.mem_cons_of_mem _ (List.mem_singleton_self _))

/-- The place of a variant has the name of its file, but for Android. -/
theorem fileName?_imageTarget {o : OutputPaths} {p : Path} (hplatform : platform ≠ .android)
    (h : imageTarget o platform key v = some p) :
    p.fileName? = some (Apple.imageFileName key v) := by
  obtain ⟨names, hnames, rfl⟩ := Option.map_eq_some_iff.1 h
  obtain ⟨directories, rfl⟩ := exists_imageNames_eq hplatform hnames
  rw [descend_concat, fileName?_div _ (isName_imageFileName key v)]

/-- **The names of generated images read back.** The name that a variant has in image folders and
asset catalogs tells its key, its scale and its format in every directory, and the generators of the
platforms but Android put it at a place of that name. -/
theorem imageOf_imageFileName (key : Key) {v : Scale × ImageFile}
    (h : v.1 = .vector ↔ v.2.format = .svg) :
    (∀ directory : Path, imageOf (directory / Apple.imageFileName key v) =
      .ok (key, v.1, v.2.format)) ∧
    ∀ (settings : GeneratorSettings) (platform : Platform) (g : Generators)
      (es : List (Entry .images)) (outputs : List Output), platform ≠ .common →
      platform ≠ .android → Generators.ofPlatform settings platform = .ok g →
      g.resources .images es = outputs.map .ok → ∀ e ∈ es, e.key = key → v ∈ imageValues e →
      ∃ name target, .image name key v.2.path target ∈ outputs ∧
        imageOf target = .ok (key, v.1, v.2.format) := by
  constructor
  · intro directory
    exact imageOf_of_fileName (fileName?_div directory (isName_imageFileName key v)) h
  · intro settings platform g es outputs hcommon handroid hg hplan e he hkey hv
    subst hkey
    have hcopies := Generators.copiesImages hg hcommon hplan
    obtain ⟨target, htarget⟩ := hcopies.exists_target e he v hv
    obtain ⟨name, header, footer, houtputs, -⟩ := hcopies.exists_eq
    refine ⟨name, target, ?_, imageOf_of_fileName (fileName?_imageTarget handroid htarget) h⟩
    rw [houtputs, imageOutputs]
    refine List.mem_append_right _ (List.mem_flatMap.2 ⟨e, he, List.mem_append_left _ ?_⟩)
    exact List.mem_map.2 ⟨v, hv, by rw [htarget, Option.getD_some]⟩

/-! ### A picture at one and a half times its size -/

namespace Beacon

def settings : GeneratorSettings where
  package := ⟨"beacon", by decide⟩
  className := ⟨"Beacon", by decide⟩
  androidPackage := none
  baseRegion := .base
  output := .under ⟨"build"⟩

def picture : Scale × ImageFile := (.raster "1.5" (by decide), ⟨⟨"light.jpeg"⟩, .jpg⟩)

def entry : Entry .images := ⟨⟨"beacon", by decide⟩, OrderedMap.ofList [picture]⟩

end Beacon

theorem imageOf_imageFileName_beacon :
    (Beacon.picture.1 = .vector ↔ Beacon.picture.2.format = .svg) ∧
      imageOf ⟨"drafts/beacon@1.5x.jpg"⟩ = .ok (Beacon.entry.key, Beacon.picture.1, .jpg) ∧
      imageOf ⟨"build/res/images/beacon@1.5x.jpg"⟩ =
        .ok (Beacon.entry.key, Beacon.picture.1, .jpg) := by
  have hformat : Beacon.picture.1 = .vector ↔ Beacon.picture.2.format = .svg :=
    iff_of_false nofun nofun
  obtain ⟨hnames, hplaces⟩ := imageOf_imageFileName Beacon.entry.key hformat
  have hdrafts : (⟨"drafts"⟩ : Path) / Apple.imageFileName Beacon.entry.key Beacon.picture =
      ⟨"drafts/beacon@1.5x.jpg"⟩ := by decide
  have htarget : (⟨"build"⟩ : Path) / "res" / "images" /
      Apple.imageFileName Beacon.entry.key Beacon.picture =
        ⟨"build/res/images/beacon@1.5x.jpg"⟩ := by decide
  obtain ⟨g, hg, hplan⟩ : ∃ g, Generators.ofPlatform Beacon.settings .jvm = .ok g ∧
      g.resources .images [Beacon.entry] = [Output.image "jvm" Beacon.entry.key ⟨"light.jpeg"⟩
        ((⟨"build"⟩ : Path) / "res" / "images" /
          Apple.imageFileName Beacon.entry.key Beacon.picture)].map .ok := ⟨_, rfl, rfl⟩
  obtain ⟨name, target, hcopy, himage⟩ := hplaces Beacon.settings .jvm g [Beacon.entry] _ nofun
    nofun hg hplan Beacon.entry List.mem_cons_self rfl (by decide)
  cases List.mem_singleton.1 hcopy
  exact ⟨hformat, hdrafts ▸ hnames ⟨"drafts"⟩, htarget ▸ himage⟩

end ResourceCompiler.Native
