import Mathlib.Data.List.Nodup
import ResourceCompiler.Proofs.Native.Performing
import ResourceCompiler.Proofs.Native.Places

/-!
# Where images go

Each variant of an image has a place of its own, but for one case: the image folders of the JVM and
of JavaScript mark neither vector drawings nor the scale `1x`, so that these two variants of an
image share a place when they have the same format. The one that is written last stays then.

* `imageNames`, `imageTarget`: the place of a variant.
* `SharesTarget`: variants of an image that have the same place.
* `Generators.read_imageTarget`: what is found at the places of all variants.
-/

namespace ResourceCompiler

/-- Texts that consist of characters of one class, up to a character of another one, agree in both
parts. -/
theorem Text.append_inj_of_head {class? : Char → Bool} {a b c d : List Char}
    (ha : ∀ x ∈ a, class? x = true) (hc : ∀ x ∈ c, class? x = true)
    (hb : ∀ x, b.head? = some x → class? x = false) (hd : ∀ x, d.head? = some x → class? x = false)
    (h : a ++ b = c ++ d) : a = c ∧ b = d := by
  have hstart {a b : List Char} (ha : ∀ x ∈ a, class? x = true)
      (hb : ∀ x, b.head? = some x → class? x = false) : (a ++ b).takeWhile class? = a := by
    rw [List.takeWhile_append_of_pos ha]
    cases b with
    | nil => exact List.append_nil a
    | cons x b =>
      rw [List.takeWhile_cons_of_neg (by simp [hb x rfl]), List.append_nil]
  have hac : a = c := by rw [← hstart ha hb, h, hstart hc hd]
  subst hac
  exact ⟨rfl, List.append_cancel_left h⟩

namespace Scale

/-- Scales that leave no mark in a file name and differ. -/
def Alike (s s' : Scale) : Prop := s = vector ∧ s' = unmarked ∨ s = unmarked ∧ s' = vector

theorem text_injective {s s' : Scale} (h : s.text = s'.text) : s = s' := by
  have hs := ofText?_text s
  rw [h, ofText?_text s'] at hs
  exact (Except.ok.inj hs).symm

theorem fileSuffix_eq_iff {s s' : Scale} : s.fileSuffix = s'.fileSuffix ↔ s = s' ∨ s.Alike s' := by
  have hmark (s : Scale) : "@" ++ s.text ≠ "" := by
    intro h
    have hlist := congrArg String.toList h
    rw [String.toList_append] at hlist
    cases hlist
  rw [fileSuffix, fileSuffix, Alike]
  by_cases hs : s = vector ∨ s = unmarked
  · by_cases hs' : s' = vector ∨ s' = unmarked
    · rw [if_pos hs, if_pos hs']
      refine iff_of_true rfl ?_
      rcases hs with rfl | rfl
      · exact hs'.imp Eq.symm fun h => .inl ⟨rfl, h⟩
      · exact hs'.symm.imp Eq.symm fun h => .inr ⟨rfl, h⟩
    · rw [if_pos hs, if_neg hs']
      refine iff_of_false (fun h => hmark s' h.symm) ?_
      rintro (rfl | ⟨-, h⟩ | ⟨-, h⟩)
      · exact hs' hs
      · exact hs' (.inr h)
      · exact hs' (.inl h)
  · by_cases hs' : s' = vector ∨ s' = unmarked
    · rw [if_neg hs, if_pos hs']
      refine iff_of_false (hmark s) ?_
      rintro (rfl | ⟨h, -⟩ | ⟨h, -⟩)
      · exact hs hs'
      · exact hs (.inl h)
      · exact hs (.inr h)
    · rw [if_neg hs, if_neg hs']
      constructor
      · intro h
        have hlist := congrArg String.toList h
        rw [String.toList_append, String.toList_append] at hlist
        exact .inl (text_injective (String.toList_injective (List.append_cancel_left hlist)))
      · rintro (rfl | ⟨h, -⟩ | ⟨h, -⟩)
        · rfl
        · exact absurd (.inl h) hs
        · exact absurd (.inr h) hs

end Scale

namespace Native

open ResourceCompiler.Path FileTree

/-! ### Places -/

/-- The names that lead to a variant of an image in the output of a platform, if it has a place. -/
def imageNames : Platform → Key → Scale × ImageFile → Option (List String)
  | .common, _, _ => none
  | .android, key, v => (Android.density? v.1).map fun bucket =>
    ["drawable-" ++ bucket, key.text ++ "." ++ v.2.format.text]
  | .apple _, key, v =>
    some ["Assets.xcassets", key.text ++ ".imageset", Apple.imageFileName key v]
  | .jvm, key, v => some ["images", Apple.imageFileName key v]
  | .js, key, v => some ["images", Apple.imageFileName key v]

/-- The output directory that the images of a platform go to. -/
def imageRoot (o : OutputPaths) : Platform → Path
  | .apple _ => o.assets
  | _ => o.resources

/-- The place of a variant of an image. -/
def imageTarget (o : OutputPaths) (platform : Platform) (key : Key) (v : Scale × ImageFile) :
    Option Path :=
  (imageNames platform key v).map (imageRoot o platform).descend

/-- Whether two variants of an image have the same place. -/
def SharesTarget (platform : Platform) (v v' : Scale × ImageFile) : Prop :=
  (platform = .jvm ∨ platform = .js) ∧ v.1.Alike v'.1 ∧ v.2.format = v'.2.format

variable {platform : Platform} {key key' : Key} {v v' : Scale × ImageFile} {names : List String}

theorem isName_of_mem_imageNames (h : imageNames platform key v = some names) :
    ∀ s ∈ names, IsName s := by
  have hfile : IsName (Apple.imageFileName key v) :=
    (((key.isStem.append v.1.not_mem_fileSuffix).append (by decide)).append
      v.2.format.not_mem_text).isName
  have himages : IsName "images" := IsStem.isName (by decide)
  cases platform with
  | common => cases h
  | android =>
    obtain ⟨bucket, hbucket, rfl⟩ := Option.map_eq_some_iff.1 h
    have hdirectory : IsStem ("drawable-" ++ bucket) :=
      .append (by decide) (Android.not_mem_of_density? hbucket)
    have hdrawable : IsStem (key.text ++ "." ++ v.2.format.text) :=
      (key.isStem.append (by decide)).append v.2.format.not_mem_text
    exact List.forall_mem_cons.2 ⟨hdirectory.isName,
      List.forall_mem_singleton.2 hdrawable.isName⟩
  | apple =>
    obtain rfl := Option.some.inj h
    have hcatalog : IsName "Assets.xcassets" := IsStem.isName (by decide)
    have hset : IsName (key.text ++ ".imageset") := (key.isStem.append (by decide)).isName
    exact List.forall_mem_cons.2 ⟨hcatalog, List.forall_mem_cons.2
      ⟨hset, List.forall_mem_singleton.2 hfile⟩⟩
  | jvm =>
    obtain rfl := Option.some.inj h
    exact List.forall_mem_cons.2 ⟨himages, List.forall_mem_singleton.2 hfile⟩
  | js =>
    obtain rfl := Option.some.inj h
    exact List.forall_mem_cons.2 ⟨himages, List.forall_mem_singleton.2 hfile⟩

theorem density?_injective {s s' : Scale} {bucket : String}
    (h : Android.density? s = some bucket) (h' : Android.density? s' = some bucket) : s = s' := by
  have hbuckets : ∀ e ∈ [("0.75x", "ldpi"), ("1x", "mdpi"), ("1.5x", "hdpi"), ("2x", "xhdpi"),
      ("3x", "xxhdpi"), ("4x", "xxxhdpi")], ∀ f ∈ [("0.75x", "ldpi"), ("1x", "mdpi"),
      ("1.5x", "hdpi"), ("2x", "xhdpi"), ("3x", "xxhdpi"), ("4x", "xxxhdpi")],
      e.2 = f.2 → e.1 = f.1 := by decide
  obtain ⟨before, after, hall, -⟩ := List.lookup_eq_some_iff.1 h
  obtain ⟨before', after', hall', -⟩ := List.lookup_eq_some_iff.1 h'
  have hmem : (s.text, bucket) ∈ before ++ (s.text, bucket) :: after := by simp
  have hmem' : (s'.text, bucket) ∈ before' ++ (s'.text, bucket) :: after' := by simp
  rw [← hall] at hmem
  rw [← hall'] at hmem'
  exact Scale.text_injective (hbuckets _ hmem _ hmem' rfl)

theorem format_injective {f f' : ImageFormat} (h : f.text = f'.text) : f = f' := by
  have hf := ImageFormat.ofText?_text f
  rw [h, ImageFormat.ofText?_text f'] at hf
  exact (Option.some.inj hf).symm

/-- A key ends where something stands that no identifier has. -/
theorem key_append_inj {a b : List Char} (ha : ∀ x, a.head? = some x → isIdentifierChar x = false)
    (hb : ∀ x, b.head? = some x → isIdentifierChar x = false)
    (h : key.text.toList ++ a = key'.text.toList ++ b) : key = key' ∧ a = b := by
  obtain ⟨hkey, hrest⟩ := Text.append_inj_of_head (fun x hx => key.isIdentifierChar_of_mem hx)
    (fun x hx => key'.isIdentifierChar_of_mem hx) ha hb h
  exact ⟨Key.ext (String.toList_injective hkey), hrest⟩

theorem head_eq_dot {r : List Char} {x : Char} (h : ('.' :: r).head? = some x) :
    isIdentifierChar x = false := by
  obtain rfl := Option.some.inj h
  decide

theorem toList_imageFileName (key : Key) (v : Scale × ImageFile) :
    (Apple.imageFileName key v).toList =
      key.text.toList ++ (v.1.fileSuffix.toList ++ '.' :: v.2.format.text.toList) := by
  rw [Apple.imageFileName, String.toList_append, String.toList_append, String.toList_append,
    List.append_assoc, List.append_assoc]
  rfl

theorem imageFileName_inj (h : Apple.imageFileName key v = Apple.imageFileName key' v') :
    key = key' ∧ v.1.fileSuffix = v'.1.fileSuffix ∧ v.2.format = v'.2.format := by
  have hsuffix (s : Scale) (r : List Char) :
      ∀ x, (s.fileSuffix.toList ++ '.' :: r).head? = some x → isIdentifierChar x = false := by
    intro x hx
    rw [Scale.fileSuffix] at hx
    split at hx
    · exact head_eq_dot hx
    · rw [String.toList_append] at hx
      obtain rfl := Option.some.inj hx
      decide
  have hdot (f : ImageFormat) : ∀ x ∈ f.text.toList.reverse, (x != '.') = true :=
    List.all_eq_true.1 (by cases f <;> decide)
  have hhead (r : List Char) : ∀ x, ('.' :: r).head? = some x → (x != '.') = false := by
    intro x hx
    obtain rfl := Option.some.inj hx
    decide
  have hlist := congrArg String.toList h
  rw [toList_imageFileName, toList_imageFileName] at hlist
  obtain ⟨hkey, hrest⟩ := key_append_inj (hsuffix _ _) (hsuffix _ _) hlist
  -- the format is what stands behind the last dot
  have hreverse := congrArg List.reverse hrest
  rw [List.reverse_append, List.reverse_append, List.reverse_cons, List.reverse_cons,
    List.append_assoc, List.append_assoc, List.singleton_append, List.singleton_append] at hreverse
  obtain ⟨hformat, hend⟩ := Text.append_inj_of_head (hdot _) (hdot _) (hhead _) (hhead _) hreverse
  refine ⟨hkey, String.toList_injective ?_, ?_⟩
  · exact List.reverse_injective (List.cons.inj hend).2
  · exact format_injective (String.toList_injective (List.reverse_injective hformat))

/-- Which variants have the same place: those of one image that differ in nothing that a place shows
of them. Asset catalogs do not tell vector drawings from the scale `1x` either, but no image set has
both. -/
theorem imageNames_inj (h : imageNames platform key v = some names)
    (h' : imageNames platform key' v' = some names) :
    key = key' ∧ v.2.format = v'.2.format ∧
      (v.1 = v'.1 ∨ platform ≠ .android ∧ v.1.Alike v'.1) := by
  have hfile (hplatform : platform ≠ .android)
      (hname : Apple.imageFileName key v = Apple.imageFileName key' v') :
      key = key' ∧ v.2.format = v'.2.format ∧
        (v.1 = v'.1 ∨ platform ≠ .android ∧ v.1.Alike v'.1) := by
    obtain ⟨hkey, hsuffix, hformat⟩ := imageFileName_inj hname
    exact ⟨hkey, hformat, (Scale.fileSuffix_eq_iff.1 hsuffix).imp id fun h => ⟨hplatform, h⟩⟩
  cases platform with
  | common => cases h
  | android =>
    obtain ⟨bucket, hbucket, rfl⟩ := Option.map_eq_some_iff.1 h
    obtain ⟨bucket', hbucket', hnames⟩ := Option.map_eq_some_iff.1 h'
    obtain ⟨hdirectory, hname⟩ := List.cons.inj hnames
    have hlist := congrArg String.toList hdirectory
    rw [String.toList_append, String.toList_append] at hlist
    obtain rfl := String.toList_injective (List.append_cancel_left hlist)
    have hdrawable := congrArg String.toList (List.cons.inj hname).1
    rw [String.toList_append, String.toList_append, String.toList_append, String.toList_append,
      List.append_assoc, List.append_assoc] at hdrawable
    obtain ⟨hkey, hformat⟩ := key_append_inj (fun x hx => head_eq_dot hx)
      (fun x hx => head_eq_dot hx) hdrawable
    refine ⟨hkey.symm, ?_, .inl (density?_injective hbucket hbucket')⟩
    exact (format_injective (String.toList_injective (List.cons.inj hformat).2)).symm
  | apple =>
    obtain rfl := Option.some.inj h
    exact hfile Platform.noConfusion
      (List.cons.inj (List.cons.inj (List.cons.inj (Option.some.inj h')).2).2).1.symm
  | jvm =>
    obtain rfl := Option.some.inj h
    exact hfile Platform.noConfusion (List.cons.inj (List.cons.inj (Option.some.inj h')).2).1.symm
  | js =>
    obtain rfl := Option.some.inj h
    exact hfile Platform.noConfusion (List.cons.inj (List.cons.inj (Option.some.inj h')).2).1.symm

theorem SharesTarget.imageTarget_eq (h : SharesTarget platform v v') (o : OutputPaths) (key : Key) :
    imageTarget o platform key v = imageTarget o platform key v' := by
  obtain ⟨hplatform, halike, hformat⟩ := h
  have hname : Apple.imageFileName key v = Apple.imageFileName key v' := by
    rw [Apple.imageFileName, Apple.imageFileName, Scale.fileSuffix_eq_iff.2 (.inr halike), hformat]
  rcases hplatform with rfl | rfl
  · simp only [imageTarget, imageNames, hname]
  · simp only [imageTarget, imageNames, hname]

/-! ### Plans -/

/-- The output for images: the copies of the variants of each image, between documents. -/
def imageOutputs (platform : String) (target : Key → Scale × ImageFile → Path)
    (header : List Output) (footer : Entry .images → List Output) (es : List (Entry .images)) :
    List Output :=
  header ++ es.flatMap fun e =>
    (imageValues e).map (fun v => .image platform e.key v.2.path (target e.key v)) ++ footer e

theorem eq_map_of_map_eq {α : Type} {f : α → Except GenerateError Output} {g : α → Output}
    {as : List α} {outputs : List Output} (h : as.map f = outputs.map .ok)
    (hg : ∀ a o, f a = .ok o → o = g a) : outputs = as.map g := by
  induction as generalizing outputs with
  | nil => exact List.map_eq_nil_iff.1 h.symm
  | cons a as ih =>
    cases outputs with
    | nil => cases h
    | cons o outputs =>
      obtain ⟨ho, hrest⟩ := List.cons.inj h
      rw [List.map_cons, hg a o ho, ih hrest]

theorem eq_flatMap_of_flatMap_eq {α : Type} {f : α → Plan} {g : α → List Output} {as : List α}
    {outputs : List Output} (h : as.flatMap f = outputs.map .ok)
    (hg : ∀ a os, f a = os.map .ok → os = g a) : outputs = as.flatMap g := by
  induction as generalizing outputs with
  | nil => exact List.map_eq_nil_iff.1 h.symm
  | cons a as ih =>
    rw [List.flatMap_cons] at h
    obtain ⟨first, rest, rfl, hfirst, hrest⟩ := List.map_eq_append_iff.1 h.symm
    rw [List.flatMap_cons, hg a first hfirst.symm, ih hrest.symm]

/-- A plan without a fault has none in any of its parts. -/
theorem exists_ok_of_mem {plan : Plan} {outputs : List Output} (h : plan = outputs.map .ok)
    {step : Except GenerateError Output} (hstep : step ∈ plan) : ∃ o, step = .ok o := by
  rw [h] at hstep
  obtain ⟨o, -, rfl⟩ := List.mem_map.1 hstep
  exact ⟨o, rfl⟩

theorem exists_eq_map_ok {plan : Plan} (h : ∀ step ∈ plan, ∃ o, step = .ok o) :
    ∃ outputs : List Output, plan = outputs.map .ok := by
  induction plan with
  | nil => exact ⟨[], rfl⟩
  | cons step plan ih =>
    obtain ⟨o, rfl⟩ := h step List.mem_cons_self
    obtain ⟨outputs, rfl⟩ := ih fun step hstep => h step (List.mem_cons_of_mem _ hstep)
    exact ⟨o :: outputs, rfl⟩

/-- Whether output copies all variants of images to their places. -/
structure CopiesImages (o : OutputPaths) (platform : Platform) (es : List (Entry .images))
    (outputs : List Output) : Prop where
  exists_target : ∀ e ∈ es, ∀ v ∈ imageValues e, ∃ p, imageTarget o platform e.key v = some p
  exists_eq : ∃ name header footer,
    outputs = imageOutputs name (fun key v => (imageTarget o platform key v).getD ⟨""⟩)
        header footer es ∧
      ∀ e ∈ es, ∀ x ∈ footer e, ∃ l, x.path.location = l ++ ["Contents.json"]
  shares_of_alike : platform ≠ .android → ∀ e ∈ es, ∀ v ∈ imageValues e, ∀ v' ∈ imageValues e,
    v.1.Alike v'.1 → platform = .jvm ∨ platform = .js

variable {o : OutputPaths} {es : List (Entry .images)} {outputs : List Output}

theorem drawable_eq_ok {resources : Path} {x : Output}
    (h : Android.drawable resources key v = .ok x) :
    ∃ names, imageNames .android key v = some names ∧
      x = .image Android.platform key v.2.path (resources.descend names) := by
  simp only [Android.drawable] at h
  split at h
  · cases h
  · split at h
    · cases h
    · rename_i bucket hbucket
      obtain rfl := Except.ok.inj h
      refine ⟨["drawable-" ++ bucket, key.text ++ "." ++ v.2.format.text], ?_, rfl⟩
      rw [imageNames, hbucket, Option.map_some]

theorem copiesImages_android (h : es.flatMap (Android.drawables o.resources) = outputs.map .ok) :
    CopiesImages o .android es outputs where
  exists_target := by
    intro e he v hv
    have hlower : e.key.isLowercase = true := by
      cases hlower : e.key.isLowercase with
      | true => rfl
      | false =>
        obtain ⟨x, hx⟩ := exists_ok_of_mem h (List.mem_flatMap.2
          ⟨e, he, by rw [Android.drawables, hlower]; exact List.mem_singleton_self _⟩)
        cases hx
    obtain ⟨x, hx⟩ := exists_ok_of_mem h (List.mem_flatMap.2
      ⟨e, he, by rw [Android.drawables, if_pos hlower]; exact List.mem_map_of_mem hv⟩)
    obtain ⟨names, hnames, -⟩ := drawable_eq_ok hx
    exact ⟨_, by rw [imageTarget, hnames, Option.map_some]⟩
  exists_eq := by
    refine ⟨Android.platform, [], fun _ => [], ?_, fun _ _ x hx => by cases hx⟩
    refine eq_flatMap_of_flatMap_eq h fun e os hos => ?_
    rw [List.append_nil]
    rw [Android.drawables] at hos
    split at hos
    · refine eq_map_of_map_eq hos fun v x hx => ?_
      obtain ⟨names, hnames, rfl⟩ := drawable_eq_ok hx
      simp only [imageTarget, hnames]
      rfl
    · obtain ⟨x, hx⟩ := exists_ok_of_mem hos (List.mem_singleton_self _)
      cases hx
  shares_of_alike := fun h => absurd rfl h

theorem copiesImages_folder {name : String} (hplatform : platform = .jvm ∨ platform = .js)
    (h : imageFolder name o.resources es = outputs.map .ok) :
    CopiesImages o platform es outputs where
  exists_target := by
    intro e _ v _
    rcases hplatform with rfl | rfl
    · exact ⟨_, rfl⟩
    · exact ⟨_, rfl⟩
  exists_eq := by
    refine ⟨name, [], fun _ => [], ?_, fun _ _ x hx => by cases hx⟩
    refine eq_flatMap_of_flatMap_eq h fun e os hos => ?_
    rw [List.append_nil]
    refine eq_map_of_map_eq hos fun v x hx => ?_
    obtain rfl := Except.ok.inj hx
    rcases hplatform with rfl | rfl
    · rfl
    · rfl
  shares_of_alike := fun _ _ _ _ _ _ _ _ => hplatform

theorem imageCopy_eq_ok {set : Path} {x : Output} (h : Apple.imageCopy set key v = .ok x) :
    x = .image Apple.platform key v.2.path (set / Apple.imageFileName key v) := by
  rw [Apple.imageCopy] at h
  split at h
  · cases h
  · exact (Except.ok.inj h).symm

/-- An image set without a fault has variants of one sort, and their copies come first. -/
theorem imageSet_eq_ok {assets : Path} {e : Entry .images} {outputs : List Output}
    (h : Apple.imageSet assets e = outputs.map .ok) :
    (∀ v ∈ imageValues e, ∀ v' ∈ imageValues e, ¬ v.1.Alike v'.1) ∧
      ∃ text, outputs = (imageValues e).map (fun v => .image Apple.platform e.key v.2.path
          (Apple.catalog assets / (e.key.text ++ ".imageset") / Apple.imageFileName e.key v)) ++
        [.document (Apple.catalog assets / (e.key.text ++ ".imageset") / "Contents.json")
          text] := by
  simp only [Apple.imageSet] at h
  split at h
  · obtain ⟨x, hx⟩ := exists_ok_of_mem h (List.mem_singleton_self _)
    cases hx
  · rename_i hsort
    refine ⟨fun v hv v' hv' halike => hsort ?_, ?_⟩
    · have hmixed {u u' : Scale × ImageFile} (hu : u ∈ imageValues e) (hu' : u' ∈ imageValues e)
          (hvector : u.1 = .vector) (hraster : u'.1 = .unmarked) :
          ((imageValues e).any (fun v => v.1.isVector) &&
            !(imageValues e).all fun v => v.1.isVector) = true := by
        rw [Bool.and_eq_true, List.any_eq_true, Bool.not_eq_true', List.all_eq_false]
        exact ⟨⟨u, hu, by rw [hvector]; rfl⟩, u', hu', by rw [hraster]; decide⟩
      rcases halike with ⟨hvector, hraster⟩ | ⟨hraster, hvector⟩
      · exact hmixed hv hv' hvector hraster
      · exact hmixed hv' hv hvector hraster
    · obtain ⟨copies, rest, rfl, hcopies, hrest⟩ := List.map_eq_append_iff.1 h.symm
      obtain rfl := eq_map_of_map_eq hcopies.symm fun v x hx => imageCopy_eq_ok hx
      cases rest with
      | nil => cases hrest
      | cons x rest =>
        obtain ⟨hx, hnil⟩ := List.cons.inj hrest
        obtain rfl := List.map_eq_nil_iff.1 hnil
        obtain rfl := Except.ok.inj hx
        exact ⟨_, rfl⟩

theorem copiesImages_apple {target : AppleTarget}
    (h : Apple.imagePlan o.assets es = outputs.map .ok) :
    CopiesImages o (.apple target) es outputs := by
  -- what describes a set stands behind the copies
  let footer (e : Entry .images) : List Output :=
    ((Apple.imageSet o.assets e).drop (imageValues e).length).filterMap Except.toOption
  have hfooter {e : Entry .images} {os : List Output}
      (hos : Apple.imageSet o.assets e = os.map .ok) :
      os = (imageValues e).map (fun v => .image Apple.platform e.key v.2.path
        ((imageTarget o (.apple target) e.key v).getD ⟨""⟩)) ++ footer e := by
    obtain ⟨-, text, hcopies⟩ := imageSet_eq_ok hos
    have hdrop : footer e = (os.drop (imageValues e).length) := by
      show ((Apple.imageSet o.assets e).drop _).filterMap Except.toOption = _
      rw [hos, ← List.map_drop, List.filterMap_map]
      exact List.filterMap_some
    rw [hdrop, hcopies, List.drop_left' (List.length_map _)]
    rfl
  have hsets {outputs : List Output} (h : es.flatMap (Apple.imageSet o.assets) = outputs.map .ok)
      {e : Entry .images} (he : e ∈ es) :
      ∃ os : List Output, Apple.imageSet o.assets e = os.map .ok :=
    exists_eq_map_ok fun _ hstep => exists_ok_of_mem h (List.mem_flatMap.2 ⟨e, he, hstep⟩)
  have hcopies (header sets : List Output)
      (h : es.flatMap (Apple.imageSet o.assets) = sets.map .ok) (hall : outputs = header ++ sets) :
      CopiesImages o (.apple target) es outputs := by
    refine ⟨fun e _ v _ => ⟨_, rfl⟩, ⟨Apple.platform, header, footer, ?_, ?_⟩, ?_⟩
    · rw [hall, eq_flatMap_of_flatMap_eq h fun e os hos => hfooter hos]
      rfl
    · intro e he x hx
      obtain ⟨os, hos⟩ := hsets h he
      obtain ⟨-, text, hdocument⟩ := imageSet_eq_ok hos
      have hend := (hfooter hos).symm.trans hdocument
      rw [List.append_cancel_left hend] at hx
      obtain rfl := List.mem_singleton.1 hx
      have hnames : ∀ s ∈ ["Assets.xcassets", e.key.text ++ ".imageset", "Contents.json"],
          IsName s := List.forall_mem_cons.2 ⟨IsStem.isName (by decide), List.forall_mem_cons.2
        ⟨(e.key.isStem.append (by decide)).isName,
          List.forall_mem_singleton.2 (IsStem.isName (by decide))⟩⟩
      exact ⟨_, (location_descend o.assets hnames).trans (List.append_assoc _ [_, _] [_]).symm⟩
    · intro _ e he v hv v' hv' halike
      obtain ⟨os, hos⟩ := hsets h he
      exact absurd halike ((imageSet_eq_ok hos).1 v hv v' hv')
  rw [Apple.imagePlan] at h
  split at h
  · rename_i hempty
    obtain rfl := List.map_eq_nil_iff.1 h.symm
    obtain rfl := List.isEmpty_iff.1 hempty
    exact hcopies [] [] rfl rfl
  · cases outputs with
    | nil => cases h
    | cons x sets => exact hcopies [x] sets (List.cons.inj h).2 rfl

/-- What the generator of a platform makes of images copies all variants to their places. -/
theorem Generators.copiesImages {settings : GeneratorSettings} {g : Generators}
    (hg : ofPlatform settings platform = .ok g) (hplatform : platform ≠ .common)
    (h : g.resources .images es = outputs.map .ok) :
    CopiesImages settings.output platform es outputs := by
  cases platform with
  | common => exact absurd rfl hplatform
  | android =>
    rw [ofPlatform] at hg
    split at hg
    · obtain rfl := Except.ok.inj hg
      exact copiesImages_android h
    · cases hg
  | apple =>
    obtain rfl := Except.ok.inj hg
    exact copiesImages_apple h
  | jvm =>
    obtain rfl := Except.ok.inj hg
    exact copiesImages_folder (.inl rfl) h
  | js =>
    obtain rfl := Except.ok.inj hg
    exact copiesImages_folder (.inr rfl) h

/-! ### What is found at the places -/

variable {p q : Path} {s t : FileTree}

theorem location_of_imageTarget (h : imageTarget o platform key v = some p) :
    ∃ names, imageNames platform key v = some names ∧
      p.location = (imageRoot o platform).location ++ names := by
  obtain ⟨names, hnames, rfl⟩ := Option.map_eq_some_iff.1 h
  exact ⟨names, hnames, location_descend _ (isName_of_mem_imageNames hnames)⟩

theorem imageTarget_inj (h : imageTarget o platform key v = some p)
    (h' : imageTarget o platform key' v' = some q) (hloc : p.location = q.location) :
    key = key' ∧ v.2.format = v'.2.format ∧
      (v.1 = v'.1 ∨ platform ≠ .android ∧ v.1.Alike v'.1) := by
  obtain ⟨names, hnames, hp⟩ := location_of_imageTarget h
  obtain ⟨names', hnames', hq⟩ := location_of_imageTarget h'
  rw [hp, hq] at hloc
  obtain rfl := List.append_cancel_left hloc
  exact imageNames_inj hnames hnames'

/-- No variant has the place of a description, since no image format has its extension. -/
theorem imageTarget_ne_contents (h : imageTarget o platform key v = some p) (l : Location) :
    p.location ≠ l ++ ["Contents.json"] := by
  have hformat (before : List Char) (f : ImageFormat) :
      (before ++ f.text.toList).getLast? = some 'g' := by
    rw [List.getLast?_append_of_ne_nil]
    · cases f <;> decide
    · cases f <;> decide
  obtain ⟨names, hnames, hp⟩ := location_of_imageTarget h
  obtain ⟨first, name, rfl, hname⟩ : ∃ first name, names = first ++ [name] ∧
      name.toList.getLast? = some 'g' := by
    have hfile : (Apple.imageFileName key v).toList.getLast? = some 'g' := by
      rw [Apple.imageFileName, String.toList_append]
      exact hformat _ _
    cases platform with
    | common => cases hnames
    | android =>
      obtain ⟨bucket, -, rfl⟩ := Option.map_eq_some_iff.1 hnames
      refine ⟨[_], _, rfl, ?_⟩
      rw [String.toList_append]
      exact hformat _ _
    | apple => exact ⟨[_, _], _, (Option.some.inj hnames).symm, hfile⟩
    | jvm => exact ⟨[_], _, (Option.some.inj hnames).symm, hfile⟩
    | js => exact ⟨[_], _, (Option.some.inj hnames).symm, hfile⟩
  intro hloc
  rw [hp, ← List.append_assoc] at hloc
  obtain ⟨-, hend⟩ := List.append_inj' hloc rfl
  obtain rfl := (List.cons.inj hend).1
  revert hname
  decide

theorem eq_of_fst_eq {e : Entry .images} (hv : v ∈ imageValues e) (hv' : v' ∈ imageValues e)
    (h : v.1 = v'.1) : v = v' := by
  have hnodup : ((imageValues e).map Prod.fst).Nodup := OrderedMap.distinct e.value
  exact List.inj_on_of_nodup_map hnodup hv hv' h

/-- A variant is found at its place, unless one that shares the place comes behind it. -/
theorem CopiesImages.read_target {e : Entry .images} {content : ByteArray}
    (hc : CopiesImages o platform es outputs) (hkeys : (es.map Entry.key).Nodup)
    (hwrites : Writes t outputs s) (he : e ∈ es) (hv : v ∈ imageValues e)
    (hsource : ∀ x ∈ outputs, v.2.path.location ≠ x.path.location)
    (hread : t.read v.2.path = .ok content) (hp : imageTarget o platform e.key v = some p)
    (hlast : ∀ v', [v, v'].Sublist (imageValues e) → ¬ SharesTarget platform v v') :
    s.read p = .ok content := by
  obtain ⟨name, header, footer, rfl, hfooter⟩ := hc.exists_eq
  obtain ⟨es₁, es₂, rfl⟩ := List.append_of_mem he
  obtain ⟨vs₁, vs₂, hvs⟩ := List.append_of_mem hv
  let copies (e : Entry .images) (vs : List (Scale × ImageFile)) : List Output :=
    vs.map fun v => .image name e.key v.2.path ((imageTarget o platform e.key v).getD ⟨""⟩)
  have hsplit : imageOutputs name (fun key v => (imageTarget o platform key v).getD ⟨""⟩) header
      footer (es₁ ++ e :: es₂) =
        (header ++ es₁.flatMap (fun e => copies e (imageValues e) ++ footer e) ++ copies e vs₁) ++
        .image name e.key v.2.path p :: (copies e vs₂ ++ footer e ++
          es₂.flatMap fun e => copies e (imageValues e) ++ footer e) := by
    have hvariants : copies e (imageValues e) =
        copies e vs₁ ++ .image name e.key v.2.path p :: copies e vs₂ := by
      show List.map _ (imageValues e) = _
      rw [hvs, List.map_append, List.map_cons, hp]
      rfl
    show header ++ (es₁ ++ e :: es₂).flatMap (fun e => copies e (imageValues e) ++ footer e) = _
    rw [List.flatMap_append, List.flatMap_cons, hvariants]
    simp only [List.append_assoc, List.cons_append]
  have hmem {v' : Scale × ImageFile} (hv' : v' ∈ vs₂) : v' ∈ imageValues e := by
    rw [hvs]
    exact List.mem_append_right _ (List.mem_cons_of_mem v hv')
  have hself := List.mem_append_right es₁ (List.mem_cons_self (a := e) (l := es₂))
  rw [hsplit] at hwrites hsource
  have hbefore := fun x hx => hsource x (List.mem_append_left _ hx)
  have hne := hsource (.image name e.key v.2.path p) (List.mem_append_right _ List.mem_cons_self)
  refine hwrites.read_image ?_ hbefore hne hread
  intro x hx hloc
  rcases List.mem_append.1 hx with hx | hx
  · rcases List.mem_append.1 hx with hx | hx
    · -- a variant of the same image
      obtain ⟨v', hv', rfl⟩ := List.mem_map.1 hx
      obtain ⟨q, hq⟩ := hc.exists_target e hself v' (hmem hv')
      have hloc : p.location = q.location := by
        rw [hloc, Output.path, hq, Option.getD_some]
      obtain ⟨-, hformat, hscale⟩ := imageTarget_inj hp hq hloc
      have hpair : [v, v'].Sublist (imageValues e) := by
        rw [hvs]
        exact .trans ((List.singleton_sublist.2 hv').cons_cons v) (List.sublist_append_right _ _)
      rcases hscale with hscale | ⟨hplatform, halike⟩
      · have hnodup : (imageValues e).Nodup :=
          List.Nodup.of_map Prod.fst (OrderedMap.distinct e.value)
        rw [← eq_of_fst_eq hv (hmem hv') hscale] at hpair
        exact List.nodup_iff_sublist.1 hnodup v hpair
      · have hshares := hc.shares_of_alike hplatform e hself v hv v' (hmem hv') halike
        exact hlast v' hpair ⟨hshares, halike, hformat⟩
    · obtain ⟨l, hl⟩ := hfooter e hself x hx
      exact imageTarget_ne_contents hp l (hloc.trans hl)
  · -- an image behind it
    obtain ⟨e', he', hx⟩ := List.mem_flatMap.1 hx
    have hmem' := List.mem_append_right es₁ (List.mem_cons_of_mem e he')
    rcases List.mem_append.1 hx with hx | hx
    · obtain ⟨v', hv', rfl⟩ := List.mem_map.1 hx
      obtain ⟨q, hq⟩ := hc.exists_target e' hmem' v' hv'
      have hloc : p.location = q.location := by
        rw [hloc, Output.path, hq, Option.getD_some]
      have hkey := (imageTarget_inj hp hq hloc).1
      rw [List.map_append, List.map_cons, List.nodup_append] at hkeys
      exact (List.nodup_cons.1 hkeys.2.1).1 (hkey ▸ List.mem_map_of_mem he')
    · obtain ⟨l, hl⟩ := hfooter e' hmem' x hx
      exact imageTarget_ne_contents hp l (hloc.trans hl)

theorem not_sublist_swap {α : Type} {a b : α} {l : List α} (hl : l.Nodup)
    (h : [a, b].Sublist l) : ¬ [b, a].Sublist l := by
  induction l with
  | nil => cases h
  | cons x l ih =>
    obtain ⟨hx, hl⟩ := List.nodup_cons.1 hl
    intro hswap
    cases h with
    | cons _ h =>
      cases hswap with
      | cons _ hswap => exact ih hl h hswap
      | cons_cons _ hswap => exact hx (h.subset (List.mem_cons_of_mem a List.mem_cons_self))
    | cons_cons _ h =>
      cases hswap with
      | cons _ hswap => exact hx (hswap.subset (List.mem_cons_of_mem b List.mem_cons_self))
      | cons_cons _ hswap => exact hx (h.subset List.mem_cons_self)

theorem SharesTarget.symm (h : SharesTarget platform v v') : SharesTarget platform v' v :=
  ⟨h.1, h.2.1.symm.imp And.symm And.symm, h.2.2.symm⟩

/-- A variant shares its place with at most one other scale. -/
theorem SharesTarget.fst_eq {v'' : Scale × ImageFile} (h : SharesTarget platform v v')
    (h' : SharesTarget platform v' v'') : v.1 = v''.1 := by
  have hraster : Scale.vector ≠ .unmarked := by decide
  rcases h.2.1 with ⟨hv, hv'⟩ | ⟨hv, hv'⟩
  · rcases h'.2.1 with ⟨hv₂, -⟩ | ⟨-, hv''⟩
    · exact absurd (hv₂.symm.trans hv') hraster
    · rw [hv, hv'']
  · rcases h'.2.1 with ⟨-, hv''⟩ | ⟨hv₂, -⟩
    · rw [hv, hv'']
    · exact absurd (hv'.symm.trans hv₂) hraster

/-- **What is found at the places of images.** Each variant has a place. Two variants have the same
one exactly if they share it, and this place holds the one that was written last. -/
theorem Generators.read_imageTarget {settings : GeneratorSettings} {g : Generators}
    {written : List Path} (hg : ofPlatform settings platform = .ok g)
    (hplatform : platform ≠ .common) (hkeys : (es.map Entry.key).Nodup)
    (hsources : ∀ e ∈ es, ∀ v ∈ imageValues e, t.isFile v.2.path = true ∧
      ∀ d ∈ settings.output.directories, ¬ d.location <+: v.2.path.location)
    (h : (g.resources .images es).perform.run t = (.ok written, s)) :
    ∀ e ∈ es, ∀ v ∈ imageValues e, ∃ p ∈ written,
      imageTarget settings.output platform e.key v = some p ∧
      (∀ e' ∈ es, ∀ v' ∈ imageValues e', ∀ q,
        imageTarget settings.output platform e'.key v' = some q →
        (p.location = q.location ↔ e = e' ∧ (v = v' ∨ SharesTarget platform v v'))) ∧
      ((∀ v', [v, v'].Sublist (imageValues e) → ¬ SharesTarget platform v v') →
        s.read p = t.read v.2.path) ∧
      ∀ v', [v, v'].Sublist (imageValues e) → SharesTarget platform v v' →
        s.read p = t.read v'.2.path := by
  obtain ⟨outputs, hplan, rfl, hwrites⟩ := Plan.perform_eq_ok h
  have hc := copiesImages hg hplatform hplan
  -- sources are never written over, since output goes to the output directories
  have hkept : ∀ e ∈ es, ∀ v ∈ imageValues e, ∀ x ∈ outputs,
      v.2.path.location ≠ x.path.location := by
    intro e he v hv x hx hloc
    have hx : .ok x ∈ g.resources .images es := hplan ▸ List.mem_map_of_mem hx
    rcases inside_of_mem_resources hg hx with hin | hin
    · obtain ⟨names, -, hnames⟩ := hin.exists_location
      refine (hsources e he v hv).2 settings.output.resources (by simp [OutputPaths.directories]) ?_
      exact ⟨names, hnames.symm.trans hloc.symm⟩
    · obtain ⟨names, -, hnames⟩ := hin.exists_location
      refine (hsources e he v hv).2 settings.output.assets (by simp [OutputPaths.directories]) ?_
      exact ⟨names, hnames.symm.trans hloc.symm⟩
  have hread {e : Entry .images} (he : e ∈ es) {v : Scale × ImageFile} (hv : v ∈ imageValues e)
      {p : Path} (hp : imageTarget settings.output platform e.key v = some p)
      (hlast : ∀ v', [v, v'].Sublist (imageValues e) → ¬ SharesTarget platform v v') :
      s.read p = t.read v.2.path := by
    obtain ⟨content, hcontent⟩ := isFile_iff.1 (hsources e he v hv).1
    rw [hcontent]
    exact hc.read_target hkeys hwrites he hv (hkept e he v hv) hcontent hp hlast
  intro e he v hv
  obtain ⟨p, hp⟩ := hc.exists_target e he v hv
  refine ⟨p, ?_, hp, ?_, hread he hv hp, ?_⟩
  · obtain ⟨name, header, footer, rfl, -⟩ := hc.exists_eq
    refine List.mem_map.2 ⟨.image name e.key v.2.path p, ?_, rfl⟩
    refine List.mem_append_right _ (List.mem_flatMap.2 ⟨e, he, List.mem_append_left _ ?_⟩)
    exact List.mem_map.2 ⟨v, hv, by simp only [hp, Option.getD_some]⟩
  · intro e' he' v' hv' q hq
    constructor
    · intro hloc
      obtain ⟨hkey, hformat, hscale⟩ := imageTarget_inj hp hq hloc
      obtain rfl : e = e' := List.inj_on_of_nodup_map hkeys he he' hkey
      refine ⟨rfl, ?_⟩
      rcases hscale with hscale | ⟨hother, halike⟩
      · exact .inl (eq_of_fst_eq hv hv' hscale)
      · exact .inr ⟨hc.shares_of_alike hother e he v hv v' hv' halike, halike, hformat⟩
    · rintro ⟨rfl, rfl | hshares⟩
      · rw [Option.some.inj (hp.symm.trans hq)]
      · rw [Option.some.inj ((hp.symm.trans (hshares.imageTarget_eq _ _)).trans hq)]
  · intro v' hpair hshares
    have hv' := hpair.subset (List.mem_cons_of_mem v List.mem_cons_self)
    have hp' := (hshares.imageTarget_eq settings.output e.key).symm.trans hp
    refine hread he hv' hp' fun v'' hpair' hshares' => ?_
    have hv'' := hpair'.subset (List.mem_cons_of_mem v' List.mem_cons_self)
    obtain rfl := eq_of_fst_eq hv hv'' (hshares.fst_eq hshares')
    have hnodup : (imageValues e).Nodup :=
      List.Nodup.of_map Prod.fst (OrderedMap.distinct e.value)
    exact not_sublist_swap hnodup hpair hpair'

/-! ### A drawing that is lost -/

namespace Sketch

/-- The settings of a pass for the JVM. -/
def settings : GeneratorSettings where
  package := ⟨"gallery", by decide⟩
  className := .default
  androidPackage := none
  baseRegion := .base
  output := .under ⟨"out"⟩

/-- A drawing. -/
def drawing : Scale × ImageFile := (.vector, ⟨⟨"drawing.png"⟩, .png⟩)

/-- A picture of the drawing. -/
def picture : Scale × ImageFile := (.unmarked, ⟨⟨"picture.png"⟩, .png⟩)

/-- An image with both. -/
def entry : Entry .images := ⟨⟨"sketch", by decide⟩, OrderedMap.ofList [drawing, picture]⟩

/-- The files of the image. -/
def tree : FileTree where
  nodes := OrderedMap.ofList [(["drawing.png"], .file ⟨#[68]⟩), (["picture.png"], .file ⟨#[80]⟩)]
  rooted := by decide +kernel

/-- What copies the image for the JVM. -/
def copies : FileAction GenerateError (List Path) :=
  Plan.perform (Jvm.plan settings.package settings.className settings.output.resources .images
    [entry])

end Sketch

/-- The picture is written over the drawing. -/
theorem read_imageTarget_sketch :
    (Sketch.copies.run Sketch.tree).1 =
        .ok [⟨"out/res/images/sketch.png"⟩, ⟨"out/res/images/sketch.png"⟩] ∧
      (Sketch.copies.run Sketch.tree).2.read ⟨"out/res/images/sketch.png"⟩ =
        Sketch.tree.read Sketch.picture.2.path ∧
      Sketch.tree.read Sketch.picture.2.path ≠ Sketch.tree.read Sketch.drawing.2.path := by
  have hwritten : (Sketch.copies.run Sketch.tree).1 =
      .ok [⟨"out/res/images/sketch.png"⟩, ⟨"out/res/images/sketch.png"⟩] := by decide +kernel
  have hplace : imageTarget Sketch.settings.output .jvm Sketch.entry.key Sketch.drawing =
      some ⟨"out/res/images/sketch.png"⟩ := by decide +kernel
  obtain ⟨g, hg, hplan⟩ : ∃ g, Generators.ofPlatform Sketch.settings .jvm = .ok g ∧
      (g.resources .images [Sketch.entry]).perform = Sketch.copies := ⟨_, rfl, rfl⟩
  have hrun : (g.resources .images [Sketch.entry]).perform.run Sketch.tree =
      (.ok [⟨"out/res/images/sketch.png"⟩, ⟨"out/res/images/sketch.png"⟩],
        (Sketch.copies.run Sketch.tree).2) := by
    rw [hplan, ← hwritten]
  obtain ⟨p, -, hp, -, -, hlost⟩ := Generators.read_imageTarget hg (by decide) (by decide)
    (by decide +kernel) hrun Sketch.entry List.mem_cons_self Sketch.drawing (by decide +kernel)
  have hread := hlost Sketch.picture (by decide +kernel) ⟨.inl rfl, .inl ⟨rfl, rfl⟩, rfl⟩
  rw [Option.some.inj (hp.symm.trans hplace)] at hread
  exact ⟨hwritten, hread, by decide +kernel⟩

end Native

end ResourceCompiler
