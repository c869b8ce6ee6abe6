import ResourceCompiler.Native.Generators
import ResourceCompiler.Proofs.Characters
import ResourceCompiler.Proofs.Naming
import ResourceCompiler.Proofs.Native.Collecting

/-!
# Where native output goes

Every file of native output has a path that names lead down to from one of the output directories:
native resources and asset catalogs from theirs, holders from the sources.

* `Path.IsStem`: texts that a name can start with.
* `Output.Inside`, `Plan.Inside`: output below a directory.
* `Generators.inside_of_mem_resources`, `Generators.holder_eq`: where the output of a platform goes.
-/

namespace ResourceCompiler

namespace Path

/-- Whether a text can start a name, whatever follows it. -/
def IsStem (s : String) : Prop :=
  s.toList.head? ≠ none ∧ s.toList.head? ≠ some '.' ∧ '/' ∉ s.toList

instance (s : String) : Decidable (IsStem s) :=
  inferInstanceAs (Decidable (_ ∧ _ ∧ _))

variable {a b : String}

theorem IsStem.isName (h : IsStem a) : IsName a := by
  obtain ⟨hne, hdot, hslash⟩ := h
  cases ha : a.toList with
  | nil => exact absurd (by rw [ha]; rfl) hne
  | cons c r =>
    rw [ha] at hdot
    refine isName_of_head ha (fun hc => hdot ?_) hslash
    rw [hc]
    rfl

theorem IsStem.append (ha : IsStem a) (hb : '/' ∉ b.toList) : IsStem (a ++ b) := by
  obtain ⟨hne, hdot, hslash⟩ := ha
  have hhead : (a ++ b).toList.head? = a.toList.head? := by
    rw [String.toList_append]
    cases h : a.toList with
    | nil => exact absurd (by rw [h]; rfl) hne
    | cons c r => rfl
  refine ⟨by rwa [hhead], by rwa [hhead], ?_⟩
  rw [String.toList_append, List.mem_append, not_or]
  exact ⟨hslash, hb⟩

theorem not_mem_append (ha : '/' ∉ a.toList) (hb : '/' ∉ b.toList) : '/' ∉ (a ++ b).toList := by
  rw [String.toList_append, List.mem_append, not_or]
  exact ⟨ha, hb⟩

theorem isStem_of_cons {s : String} {c : Char} {r : List Char} (hs : s.toList = c :: r)
    (hc : c ≠ '.') (hslash : '/' ∉ s.toList) : IsStem s := by
  refine ⟨by rw [hs]; exact Option.some_ne_none c, ?_, hslash⟩
  rw [hs, List.head?_cons]
  exact fun h => hc (Option.some.inj h)

end Path

open ResourceCompiler.Path

/-! ### Names of resources -/

theorem isStem_of_isIdentifier {s : String} (h : isIdentifier s.toList = true) : IsStem s := by
  obtain ⟨c, r, hs, hc, hr⟩ := exists_cons_of_isIdentifier h
  refine isStem_of_cons hs (by rintro rfl; cases hc) fun hslash => ?_
  exact absurd (List.all_eq_true.1 (isIdentifier_all h) _ hslash) (by decide)

theorem Key.isStem (k : Key) : IsStem k.text := isStem_of_isIdentifier k.isIdentifier

theorem ClassName.isStem (n : ClassName) : IsStem n.text := isStem_of_isIdentifier n.isIdentifier

theorem PackageName.isStem (p : PackageName) : IsStem p.text := by
  obtain ⟨c, r, hp, hc⟩ := p.exists_cons
  refine isStem_of_cons hp (by rintro rfl; cases hc) fun hslash => ?_
  rcases p.of_mem hslash with h | h
  · cases h
  · cases h

theorem PackageName.isStem_flat (p : PackageName) : IsStem p.flat := by
  obtain ⟨c, r, hp, hc⟩ := p.exists_cons_flat
  refine isStem_of_cons hp (by rintro rfl; cases hc) fun hslash => ?_
  exact absurd (p.isIdentifierChar_of_mem_flat hslash) (by decide)

theorem Locale.isStem (l : Locale) : IsStem l.text := by
  obtain ⟨c, r, hl, hc⟩ := l.exists_cons_text
  refine isStem_of_cons hl (by rintro rfl; cases hc) fun hslash => ?_
  rcases of_mem_text hslash with h | h
  · cases h
  · cases h

theorem Kind.not_mem_text (k : Kind) : '/' ∉ k.text.toList := by cases k <;> decide

theorem ImageFormat.not_mem_text (f : ImageFormat) : '/' ∉ f.text.toList := by cases f <;> decide

theorem Scale.not_mem_fileSuffix (s : Scale) : '/' ∉ s.fileSuffix.toList := by
  rw [fileSuffix]
  split
  · decide
  · exact not_mem_append (by decide) fun hslash => absurd (of_mem_text hslash) (by decide)

namespace Native

variable {d : Path} {o : Output} {plan : Plan}

/-! ### Output below a directory -/

/-- Whether names lead down to a file of output from a directory. -/
def Output.Inside (d : Path) (o : Output) : Prop :=
  ∃ names, names ≠ [] ∧ (∀ s ∈ names, IsName s) ∧ o.path = d.descend names

/-- Whether names lead down to all files of a plan from a directory. -/
def Plan.Inside (d : Path) (plan : Plan) : Prop := ∀ o, .ok o ∈ plan → o.Inside d

theorem Output.inside_name {name : String} (h : IsName name) (hpath : o.path = d / name) :
    o.Inside d :=
  ⟨[name], List.cons_ne_nil _ _, List.forall_mem_singleton.2 h, hpath⟩

theorem Output.inside_names {first second : String} (hfirst : IsName first)
    (hsecond : IsName second) (hpath : o.path = d / first / second) : o.Inside d :=
  ⟨[first, second], List.cons_ne_nil _ _,
    List.forall_mem_cons.2 ⟨hfirst, List.forall_mem_singleton.2 hsecond⟩, hpath⟩

theorem Output.Inside.of_div {name : String} (h : o.Inside (d / name)) (hname : IsName name) :
    o.Inside d := by
  obtain ⟨names, -, hnames, hpath⟩ := h
  exact ⟨name :: names, List.cons_ne_nil _ _, List.forall_mem_cons.2 ⟨hname, hnames⟩, hpath⟩

theorem Output.Inside.exists_location (h : o.Inside d) :
    ∃ names, names ≠ [] ∧ o.path.location = d.location ++ names := by
  obtain ⟨names, hne, hnames, hpath⟩ := h
  exact ⟨names, hne, by rw [hpath, location_descend d hnames]⟩

theorem Plan.inside_nil (d : Path) : Plan.Inside d [] := fun _ h => by cases h

theorem Plan.Inside.cons (ho : o.Inside d) (h : Plan.Inside d plan) :
    Plan.Inside d (.ok o :: plan) := by
  intro x hx
  rcases List.mem_cons.1 hx with hx | hx
  · exact Except.ok.inj hx ▸ ho
  · exact h x hx

theorem Plan.Inside.orFault (h : plan.Inside d) (fault : Option GenerateError) :
    (plan.orFault fault).Inside d := by
  cases fault with
  | none => exact h
  | some e =>
    intro o ho
    cases List.mem_singleton.1 ho

theorem Plan.inside_map {α : Type} {f : α → Output} {as : List α} (h : ∀ a, (f a).Inside d) :
    Plan.Inside d (as.map fun a => .ok (f a)) := by
  intro o ho
  obtain ⟨a, -, ha⟩ := List.mem_map.1 ho
  exact Except.ok.inj ha ▸ h a

theorem Plan.inside_flatMap {α : Type} {f : α → Plan} {as : List α} (h : ∀ a, (f a).Inside d) :
    Plan.Inside d (as.flatMap f) := by
  intro o ho
  obtain ⟨a, -, ha⟩ := List.mem_flatMap.1 ho
  exact h a o ha

/-! ### Android -/

theorem Android.isStem_valuesDirectory (l : Locale) : IsStem (valuesDirectory l) := by
  have hlanguage (x : Subtag isLanguage) : '/' ∉ x.val.toList := fun h =>
    absurd (Locale.isAlphanum_of_isLanguage x.property h) (by decide)
  have hscript (x : Subtag isScript) : '/' ∉ x.val.toList := fun h =>
    absurd (Locale.isAlphanum_of_isScript x.property h) (by decide)
  have hregion (x : Subtag isRegion) : '/' ∉ x.val.toList := fun h =>
    absurd (Locale.isAlphanum_of_isRegion x.property h) (by decide)
  unfold valuesDirectory
  split
  · decide
  · exact .append (by decide) (hlanguage _)
  · split
    · exact .append (.append (.append (by decide) (hlanguage _)) (by decide)) (hregion _)
    · exact .append (.append (.append (by decide) (hlanguage _)) (by decide)) (hregion _)
  · exact .append (.append (.append (by decide) (hlanguage _)) (by decide)) (hscript _)
  · exact .append (.append (.append (.append (.append (by decide) (hlanguage _)) (by decide))
      (hscript _)) (by decide)) (hregion _)

theorem Android.not_mem_of_density? {scale : Scale} {bucket : String}
    (h : density? scale = some bucket) : '/' ∉ bucket.toList := by
  obtain ⟨before, after, hall, -⟩ := List.lookup_eq_some_iff.1 h
  have hmem : (scale.text, bucket) ∈ before ++ (scale.text, bucket) :: after := by simp
  rw [← hall] at hmem
  have hbuckets : ∀ e ∈ [("0.75x", "ldpi"), ("1x", "mdpi"), ("1.5x", "hdpi"), ("2x", "xhdpi"),
      ("3x", "xxhdpi"), ("4x", "xxxhdpi")], '/' ∉ e.2.toList := by decide
  exact hbuckets _ hmem

theorem Android.inside_tables {V : Type} (package : PackageName) (resources : Path) {file : String}
    (hfile : IsName file) (line : Key × V → String) (entries : List (Key × OrderedMap Locale V)) :
    Plan.Inside resources (tables package resources file line entries) :=
  Plan.inside_map fun e => Output.inside_names (isStem_valuesDirectory e.1).isName hfile rfl

theorem Android.inside_drawables (resources : Path) (e : Entry .images) :
    Plan.Inside resources (drawables resources e) := by
  rw [drawables]
  split
  · intro o ho
    obtain ⟨⟨scale, file⟩, -, hv⟩ := List.mem_map.1 ho
    simp only [drawable] at hv
    split at hv
    · cases hv
    · split at hv
      · cases hv
      · rename_i bucket hbucket
        obtain rfl := Except.ok.inj hv
        have hdirectory : IsStem ("drawable-" ++ bucket) :=
          .append (by decide) (not_mem_of_density? hbucket)
        have hname : IsStem (e.key.text ++ "." ++ file.format.text) :=
          (e.key.isStem.append (by decide)).append file.format.not_mem_text
        exact Output.inside_names hdirectory.isName hname.isName rfl
  · intro o ho
    cases List.mem_singleton.1 ho

theorem Android.inside_colorTables (package : PackageName) (resources : Path)
    (es : List (Entry .colors)) : Plan.Inside resources (colorTables package resources es) := by
  have hfile {directory lines : String} (h : IsStem directory) :
      (Output.document (resources / directory / "colors.xml") lines).Inside resources :=
    Output.inside_names h.isName (IsStem.isName (by decide)) rfl
  simp only [colorTables]
  split
  · exact Plan.inside_nil _
  · refine .cons (hfile (by decide)) ?_
    split
    · exact Plan.inside_nil _
    · exact .cons (hfile (by decide)) (Plan.inside_nil _)

theorem Android.inside_plan (package : PackageName) (resources : Path) (k : Kind)
    (es : List (Entry k)) : Plan.Inside resources (Android.plan package resources k es) := by
  cases k with
  | strings => exact (inside_tables package resources (IsStem.isName (by decide)) _ _).orFault _
  | plurals => exact (inside_tables package resources (IsStem.isName (by decide)) _ _).orFault _
  | images => exact Plan.inside_flatMap fun e => inside_drawables resources e
  | colors => exact inside_colorTables package resources es

/-! ### Apple platforms -/

theorem Apple.isStem_directory (l : Locale) : IsStem (directory l) := by
  unfold directory
  split
  · decide
  · exact l.isStem.append (by decide)

theorem Apple.inside_contents {d : Path} (names : List String) (h : ∀ s ∈ names, IsName s)
    {description : Json} (ho : contents (d.descend names) description = .ok o) : o.Inside d := by
  obtain rfl := Except.ok.inj ho
  refine ⟨names ++ ["Contents.json"], by simp, ?_, ?_⟩
  · intro s hs
    rcases List.mem_append.1 hs with hs | hs
    · exact h s hs
    · rw [List.mem_singleton.1 hs]
      exact IsStem.isName (by decide)
  · exact (Path.descend_concat d names "Contents.json").symm

theorem Apple.inside_imageSet (assets : Path) (e : Entry .images) :
    Plan.Inside assets (imageSet assets e) := by
  have hcatalog : IsName "Assets.xcassets" := IsStem.isName (by decide)
  have hset : IsName (e.key.text ++ ".imageset") := (e.key.isStem.append (by decide)).isName
  simp only [imageSet]
  split
  · intro o ho
    cases List.mem_singleton.1 ho
  · intro o ho
    rcases List.mem_append.1 ho with ho | ho
    · obtain ⟨variant, -, hv⟩ := List.mem_map.1 ho
      rw [imageCopy] at hv
      split at hv
      · cases hv
      · obtain rfl := Except.ok.inj hv
        have hname : IsStem (imageFileName e.key variant) :=
          ((e.key.isStem.append (variant.1.not_mem_fileSuffix)).append (by decide)).append
            variant.2.format.not_mem_text
        refine ⟨["Assets.xcassets", _, _], List.cons_ne_nil _ _, ?_, rfl⟩
        exact List.forall_mem_cons.2 ⟨hcatalog, List.forall_mem_cons.2
          ⟨hset, List.forall_mem_singleton.2 hname.isName⟩⟩
    · refine inside_contents ["Assets.xcassets", _] ?_ (List.mem_singleton.1 ho).symm
      exact List.forall_mem_cons.2 ⟨hcatalog, List.forall_mem_singleton.2 hset⟩

theorem Apple.inside_plan (region : Locale) (resources assets : Path) (k : Kind)
    (es : List (Entry k)) : ∀ o, .ok o ∈ Apple.plan region resources assets k es →
      o.Inside resources ∨ o.Inside assets := by
  have hcatalog : IsName "Assets.xcassets" := IsStem.isName (by decide)
  have hroot (o : Output) (h : catalogContents assets = .ok o) : o.Inside assets :=
    inside_contents ["Assets.xcassets"] (List.forall_mem_singleton.2 hcatalog) h
  intro o ho
  cases k with
  | strings =>
    refine .inl (Plan.inside_map (fun e => ?_) o ho)
    exact Output.inside_names (isStem_directory e.1).isName (IsStem.isName (by decide)) rfl
  | plurals =>
    refine .inl (Plan.inside_map (fun e => ?_) o ho)
    exact Output.inside_names (isStem_directory e.1).isName (IsStem.isName (by decide)) rfl
  | images =>
    simp only [Apple.plan, imagePlan] at ho
    split at ho
    · cases ho
    · rcases List.mem_cons.1 ho with ho | ho
      · exact .inr (hroot o ho.symm)
      · exact .inr (Plan.inside_flatMap (fun e => inside_imageSet assets e) o ho)
  | colors =>
    simp only [Apple.plan, colorPlan] at ho
    split at ho
    · cases ho
    · rcases List.mem_cons.1 ho with ho | ho
      · exact .inr (hroot o ho.symm)
      · obtain ⟨e, -, he⟩ := List.mem_map.1 ho
        have hset : IsName (e.key.text ++ ".colorset") := (e.key.isStem.append (by decide)).isName
        refine .inr (inside_contents ["Assets.xcassets", _] ?_ he)
        exact List.forall_mem_cons.2 ⟨hcatalog, List.forall_mem_singleton.2 hset⟩

/-! ### The JVM and JavaScript -/

/-- Images lie in a directory of their own. -/
theorem inside_images (platform : String) (resources : Path) (es : List (Entry .images)) :
    Plan.Inside (resources / "images") (imageFolder platform resources es) := by
  refine Plan.inside_flatMap fun e => Plan.inside_map fun v => ?_
  have hname : IsStem (e.key.text ++ v.1.fileSuffix ++ "." ++ v.2.format.text) :=
    ((e.key.isStem.append v.1.not_mem_fileSuffix).append (by decide)).append
      v.2.format.not_mem_text
  exact Output.inside_name hname.isName rfl

theorem inside_imageFolder (platform : String) (resources : Path) (es : List (Entry .images)) :
    Plan.Inside resources (imageFolder platform resources es) := fun o ho =>
  (inside_images platform resources es o ho).of_div (IsStem.isName (by decide))

/-- The name of a bundle behind the directory it is in. -/
def Jvm.bundleFile (package : PackageName) (className : ClassName) (k : Kind) (l : Locale) :
    String :=
  package.flat ++ "_" ++ className.text ++ "_" ++ k.text ++ localeSuffix l ++ ".properties"

theorem Jvm.not_mem_localeSuffix (l : Locale) : '/' ∉ (localeSuffix l).toList := by
  cases l with
  | base => decide
  | tag language script region =>
    show '/' ∉ (String.join ((Locale.tag language script region).parts.map _)).toList
    rw [String.toList_join, List.mem_flatMap]
    rintro ⟨_, hpart, hslash⟩
    obtain ⟨part, hmem, rfl⟩ := List.mem_map.1 hpart
    refine not_mem_append (by decide) (fun h => ?_) hslash
    exact absurd (Locale.isAlphanum_of_mem_parts hmem h) (by decide)

theorem Jvm.isStem_bundleFile (package : PackageName) (className : ClassName) (k : Kind)
    (l : Locale) : IsStem (bundleFile package className k l) :=
  (((((package.isStem_flat.append (by decide)).append className.isStem.2.2).append
    (by decide)).append k.not_mem_text).append (not_mem_localeSuffix l)).append (by decide)

theorem Jvm.bundleName_append (package : PackageName) (className : ClassName) (k : Kind)
    (l : Locale) : bundleName package className k ++ localeSuffix l ++ ".properties" =
      "localization" ++ "/" ++ bundleFile package className k l := by
  have hassoc (a b c d e f g h : String) :
      a ++ b ++ c ++ d ++ e ++ f ++ g ++ h = a ++ (b ++ c ++ d ++ e ++ f ++ g ++ h) := by
    simp only [String.append_assoc]
  have hdirectory : "localization/" = "localization" ++ "/" := by decide
  exact (hassoc _ _ _ _ _ _ _ _).trans (congrArg (· ++ _) hdirectory)

/-- A bundle lies in the directory of localized texts. -/
theorem Jvm.bundlePath_eq (package : PackageName) (className : ClassName) (resources : Path)
    (k : Kind) (l : Locale) :
    resources / (bundleName package className k ++ localeSuffix l ++ ".properties") =
      resources / "localization" / bundleFile package className k l := by
  have hdirectory : IsName "localization" := IsStem.isName (by decide)
  have hfile := (isStem_bundleFile package className k l).isName
  rw [bundleName_append]
  exact Path.div_div resources hdirectory hfile

theorem Jvm.inside_plan (package : PackageName) (className : ClassName) (resources : Path)
    (k : Kind) (es : List (Entry k)) :
    Plan.Inside resources (Jvm.plan package className resources k es) := by
  have hbundles {V : Type} (k : Kind) (lines : Key × V → List String)
      (entries : List (Key × OrderedMap Locale V)) :
      Plan.Inside resources (bundles package className resources k lines entries) :=
    Plan.inside_map fun e => Output.inside_names (IsStem.isName (by decide))
      (isStem_bundleFile package className k e.1).isName
      (bundlePath_eq package className resources k e.1)
  cases k with
  | strings => exact (hbundles .strings _ _).orFault _
  | plurals => exact (hbundles .plurals _ _).orFault _
  | images => exact inside_imageFolder Jvm.platform resources es
  | colors => exact Plan.inside_nil _

/-- The name of a map behind the directory it is in. -/
def Js.mapFile (package : PackageName) (k : Kind) (l : Locale) : String :=
  package.text ++ "_" ++ k.text ++ localeSuffix l ++ ".json"

theorem Js.isStem_mapFile (package : PackageName) (k : Kind) (l : Locale) :
    IsStem (mapFile package k l) := by
  have hsuffix : '/' ∉ (localeSuffix l).toList := by
    unfold localeSuffix
    split
    · decide
    · exact not_mem_append (by decide) l.isStem.2.2
  exact (((package.isStem.append (by decide)).append k.not_mem_text).append hsuffix).append
    (by decide)

theorem Js.inside_plan (package : PackageName) (resources : Path) (k : Kind)
    (es : List (Entry k)) : Plan.Inside resources (Js.plan package resources k es) := by
  have hmaps {V : Type} (k : Kind) (valueJson : V → Json)
      (entries : List (Key × OrderedMap Locale V)) :
      Plan.Inside resources (maps package resources k valueJson entries) := by
    rw [maps_eq_orFault]
    refine (Plan.inside_map fun e => ?_).orFault _
    exact Output.inside_names (IsStem.isName (by decide)) (isStem_mapFile package k e.1).isName rfl
  cases k with
  | strings => exact hmaps .strings _ _
  | plurals => exact hmaps .plurals _ _
  | images => exact inside_imageFolder Js.platform resources es
  | colors => exact Plan.inside_nil _

/-! ### All platforms -/

namespace Generators

variable {settings : GeneratorSettings} {platform : Platform} {g : Generators}

/-- Native resources and asset catalogs go to their directories. -/
theorem inside_of_mem_resources (h : ofPlatform settings platform = .ok g) {k : Kind}
    {es : List (Entry k)} (ho : .ok o ∈ g.resources k es) :
    o.Inside settings.output.resources ∨ o.Inside settings.output.assets := by
  cases platform with
  | common =>
    obtain rfl := Except.ok.inj h
    cases ho
  | android =>
    rw [ofPlatform] at h
    split at h
    · obtain rfl := Except.ok.inj h
      exact .inl (Android.inside_plan _ _ k es o ho)
    · cases h
  | apple =>
    obtain rfl := Except.ok.inj h
    exact Apple.inside_plan _ _ _ k es o ho
  | jvm =>
    obtain rfl := Except.ok.inj h
    exact .inl (Jvm.inside_plan _ _ _ k es o ho)
  | js =>
    obtain rfl := Except.ok.inj h
    exact .inl (Js.inside_plan _ _ k es o ho)

/-- A holder is one file among the sources, if there is one. -/
theorem holder_eq (h : ofPlatform settings platform = .ok g) (objects : List ResourceObject) :
    g.holder objects = [] ∨
      ∃ o, g.holder objects = [.ok o] ∧ o.Inside settings.output.sources := by
  cases platform with
  | common =>
    obtain rfl := Except.ok.inj h
    exact .inl rfl
  | android =>
    rw [ofPlatform] at h
    split at h
    · obtain rfl := Except.ok.inj h
      exact .inl rfl
    · cases h
  | apple =>
    obtain rfl := Except.ok.inj h
    exact .inr ⟨_, rfl, Output.inside_name (IsStem.isName (by decide)) rfl⟩
  | jvm =>
    obtain rfl := Except.ok.inj h
    exact .inr ⟨_, rfl, Output.inside_name (settings.className.isStem.append (by decide)).isName
      rfl⟩
  | js =>
    obtain rfl := Except.ok.inj h
    exact .inl rfl

end Generators

end Native

end ResourceCompiler
