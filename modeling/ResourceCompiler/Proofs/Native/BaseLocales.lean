import ResourceCompiler.Native.Generators
import ResourceCompiler.Proofs.Native.Collecting
import ResourceCompiler.Proofs.Native.Performing

/-!
# Values for the base locale

Where no locale fits, Android, the JVM and JavaScript take the texts of the base locale. For these
platforms strings and plurals are checked before the first of their files is written, so that an
entry without a value for the base locale leaves no output behind, wherever it stands in the list.

* `Entry.locales`: the locales that an entry has texts for.
* `Plan.perform_documents_eq_error`: documents fail only where they cannot be written.
* `Plan.Checked`: plans of documents behind a check.
* `Generators.checked_resources`: strings and plurals are checked first.
* `Generators.perform_localized`: what strings and plurals can fail with.
-/

namespace ResourceCompiler

/-- The locales that a value has texts for. -/
def Kind.locales : (k : Kind) → k.Value → List Locale
  | .strings, v => OrderedMap.keys v
  | .plurals, v => OrderedMap.keys v
  | .images, _ => []
  | .colors, _ => []

/-- The locales that an entry has texts for. -/
def Entry.locales {k : Kind} (e : Entry k) : List Locale := k.locales e.value

namespace Native

open FileAction

variable {s t : FileTree}

/-! ### Documents that cannot be written -/

theorem Output.perform_document_eq_error {path : Path} {text : String} {e : GenerateError}
    (h : (Output.document path text).perform.run t = (.error e, s)) :
    ∃ fault, e = .unwritable path fault := by
  rcases run_bind_eq_error h with h | ⟨_, u, -, h⟩
  · obtain ⟨fault, rfl, -⟩ := run_mapError_eq_error h
    exact ⟨fault, rfl⟩
  rcases run_bind_eq_error h with h | ⟨_, v, -, h⟩
  · obtain ⟨fault, rfl, -⟩ := run_mapError_eq_error h
    exact ⟨fault, rfl⟩
  · cases h

/-- Documents fail only where they cannot be written. -/
theorem Plan.perform_documents_eq_error {ι : Type} {path : ι → Path} {text : ι → String}
    {is : List ι} {e : GenerateError}
    (h : (Plan.perform (is.map fun i => .ok (.document (path i) (text i)))).run t =
      (.error e, s)) : ∃ i ∈ is, ∃ fault, e = .unwritable (path i) fault ∧
        ∃ u, (Output.document (path i) (text i)).perform.run u = (.error e, s) := by
  obtain ⟨step, hstep, u, hfail⟩ := run_each_eq_error h
  obtain ⟨i, hi, rfl⟩ := List.mem_map.1 hstep
  obtain ⟨fault, rfl⟩ := Output.perform_document_eq_error hfail
  exact ⟨i, hi, fault, rfl, u, hfail⟩

/-- Whether a plan is nothing but a fault if there is one, and documents alone otherwise. -/
def Plan.Checked (fault : Option GenerateError) (plan : Plan) : Prop :=
  ∃ documents : List (Path × String),
    plan = Plan.orFault (documents.map fun d => .ok (.document d.1 d.2)) fault

theorem Plan.checked_orFault {α : Type} (path : α → Path) (text : α → String) (as : List α)
    (fault : Option GenerateError) :
    (Plan.orFault (as.map fun a => .ok (.document (path a) (text a))) fault).Checked fault :=
  ⟨as.map fun a => (path a, text a), by rw [List.map_map]; rfl⟩

/-- A fault that the check finds is found before anything is written. -/
theorem Plan.Checked.perform_of_some {plan : Plan} {fault : GenerateError}
    (h : plan.Checked (some fault)) (t : FileTree) :
    plan.perform.run t = (.error fault, t) := by
  obtain ⟨documents, rfl⟩ := h
  rfl

/-- Where the check finds nothing, all that can fail is the writing of a file. -/
theorem Plan.Checked.perform_of_none {plan : Plan} {error : GenerateError}
    (h : plan.Checked none) (hrun : plan.perform.run t = (.error error, s)) :
    ∃ o, .ok o ∈ plan ∧ ∃ fault, error = .unwritable o.path fault ∧
      ∃ u, o.perform.run u = (.error error, s) := by
  obtain ⟨documents, rfl⟩ := h
  obtain ⟨d, hd, fault, rfl, hfail⟩ := perform_documents_eq_error hrun
  exact ⟨.document d.1 d.2, List.mem_map.2 ⟨d, hd, rfl⟩, fault, rfl, hfail⟩

/-! ### The check of entries -/

/-- The check of values that come from other things finds the first thing without a value for the
base locale. -/
theorem requireBase_map {α V : Type} (platform : String) (kind : Kind)
    (f : α → Key × OrderedMap Locale V) (as : List α) :
    requireBase platform kind (as.map f) =
      (as.find? fun a => .base ∉ (f a).2.keys).map fun a =>
        .missingBaseLocale platform kind (f a).1 := by
  have hlacks : ∀ a, (!(f a).2.contains .base) = decide (.base ∉ (f a).2.keys) := by
    intro a
    rw [decide_not, Bool.eq_iff_iff.2 (OrderedMap.contains_iff.trans decide_eq_true_iff.symm)]
  rw [requireBase, List.find?_map, Option.map_map]
  simp only [Function.comp_def, hlacks]

/-- The fault of the first entry without a value for the base locale. -/
def baseFault? {k : Kind} (platform : String) (es : List (Entry k)) : Option GenerateError :=
  (es.find? fun e => .base ∉ e.locales).map fun e => .missingBaseLocale platform k e.key

theorem baseFault?_of_first {k : Kind} {platform : String} {before after : List (Entry k)}
    {e : Entry k} (hbefore : ∀ d ∈ before, .base ∈ d.locales) (he : .base ∉ e.locales) :
    baseFault? platform (before ++ e :: after) = some (.missingBaseLocale platform k e.key) := by
  have hfind : (before ++ e :: after).find? (fun d => .base ∉ d.locales) = some e := by
    rw [List.find?_eq_some_iff_append]
    exact ⟨by simpa using he, before, after, rfl, fun d hd => by simpa using hbefore d hd⟩
  rw [baseFault?, hfind]
  rfl

theorem baseFault?_eq_none {k : Kind} {platform : String} {es : List (Entry k)}
    (h : ∀ e ∈ es, .base ∈ e.locales) : baseFault? platform es = none := by
  rw [baseFault?, List.find?_eq_none.2 fun e he => by simpa using h e he]
  rfl

/-- A list in which some entry has no value for the base locale has a first such entry. -/
theorem exists_first_without_base {k : Kind} {es : List (Entry k)}
    (h : ∃ e ∈ es, .base ∉ e.locales) :
    ∃ before e after, es = before ++ e :: after ∧ (∀ d ∈ before, .base ∈ d.locales) ∧
      .base ∉ e.locales := by
  obtain ⟨e, he⟩ := Option.isSome_iff_exists.1 (List.find?_isSome
    (p := fun e : Entry k => decide (.base ∉ e.locales)).2 (by simpa using h))
  obtain ⟨hlacks, before, after, rfl, hbefore⟩ := List.find?_eq_some_iff_append.1 he
  exact ⟨before, e, after, rfl, fun d hd => by simpa using hbefore d hd, by simpa using hlacks⟩

theorem requireBase_stringValues (platform : String) (es : List (Entry .strings)) :
    requireBase platform .strings (stringValues es) = baseFault? platform es :=
  requireBase_map platform .strings (fun e : Entry .strings => (e.key, e.value)) es

theorem requireBase_pluralValues (platform : String) (es : List (Entry .plurals)) :
    requireBase platform .plurals (pluralValues es) = baseFault? platform es :=
  requireBase_map platform .plurals (fun e : Entry .plurals => (e.key, e.value)) es

/-! ### Strings and plurals of a platform -/

variable {k : Kind}

theorem Android.checked_plan (package : PackageName) (resources : Path)
    (hk : k = .strings ∨ k = .plurals) (es : List (Entry k)) :
    (plan package resources k es).Checked (baseFault? platform es) := by
  rcases hk with rfl | rfl
  · rw [plan, requireBase_stringValues]
    exact Plan.checked_orFault _ _ _ _
  · rw [plan, requireBase_pluralValues]
    exact Plan.checked_orFault _ _ _ _

theorem Jvm.checked_plan (package : PackageName) (className : ClassName) (resources : Path)
    (hk : k = .strings ∨ k = .plurals) (es : List (Entry k)) :
    (plan package className resources k es).Checked (baseFault? platform es) := by
  rcases hk with rfl | rfl
  · rw [plan, requireBase_stringValues]
    exact Plan.checked_orFault _ _ _ _
  · rw [plan, requireBase_pluralValues]
    exact Plan.checked_orFault _ _ _ _

theorem Js.checked_plan (package : PackageName) (resources : Path)
    (hk : k = .strings ∨ k = .plurals) (es : List (Entry k)) :
    (plan package resources k es).Checked (baseFault? platform es) := by
  rcases hk with rfl | rfl
  · rw [plan, maps_eq_orFault, requireBase_stringValues]
    exact Plan.checked_orFault _ _ _ _
  · rw [plan, maps_eq_orFault, requireBase_pluralValues]
    exact Plan.checked_orFault _ _ _ _

namespace Generators

variable {settings : GeneratorSettings} {platform : Platform} {g : Generators}

/-- Strings and plurals are checked first, however a platform arranges them. -/
theorem checked_resources (h : ofPlatform settings platform = .ok g)
    (hplatform : platform = .android ∨ platform = .jvm ∨ platform = .js)
    (hk : k = .strings ∨ k = .plurals) (es : List (Entry k)) :
    (g.resources k es).Checked (baseFault? platform.name es) := by
  rcases hplatform with rfl | rfl | rfl
  case inl =>
    rw [ofPlatform] at h
    split at h
    · obtain rfl := Except.ok.inj h
      exact Android.checked_plan _ _ hk es
    · cases h
  case inr.inl =>
    obtain rfl := Except.ok.inj h
    exact Jvm.checked_plan _ _ _ hk es
  case inr.inr =>
    obtain rfl := Except.ok.inj h
    exact Js.checked_plan _ _ hk es

/-- **Strings and plurals fail before they are written.** For Android, the JVM and JavaScript, if
some entry has no value for the base locale, the first such entry is reported, with its kind and the
platform, and the tree is as before. If all entries have one, all that can fail is the writing of
one of the files, and the failure names it. -/
theorem perform_localized (h : ofPlatform settings platform = .ok g)
    (hplatform : platform = .android ∨ platform = .jvm ∨ platform = .js)
    (hk : k = .strings ∨ k = .plurals) (es : List (Entry k)) (t : FileTree) :
    ((∃ e ∈ es, .base ∉ e.locales) →
      ∃ before e after, es = before ++ e :: after ∧ (∀ d ∈ before, .base ∈ d.locales) ∧
        .base ∉ e.locales ∧
        (g.resources k es).perform.run t =
          (.error (.missingBaseLocale platform.name k e.key), t)) ∧
      ((∀ e ∈ es, .base ∈ e.locales) →
        ∀ error s, (g.resources k es).perform.run t = (.error error, s) →
          ∃ o, .ok o ∈ g.resources k es ∧ ∃ fault, error = .unwritable o.path fault ∧
            ∃ u, o.perform.run u = (.error error, s)) := by
  have hchecked := checked_resources h hplatform hk es
  refine ⟨fun hlacks => ?_, fun hbase error s hrun => ?_⟩
  · obtain ⟨before, e, after, rfl, hbefore, he⟩ := exists_first_without_base hlacks
    refine ⟨before, e, after, rfl, hbefore, he, ?_⟩
    rw [baseFault?_of_first hbefore he] at hchecked
    exact hchecked.perform_of_some t
  · rw [baseFault?_eq_none hbase] at hchecked
    exact hchecked.perform_of_none hrun

end Generators

/-! ### A text for one locale alone -/

namespace Kiosk

def greek : Locale := .tag ⟨"el", by decide⟩ none none

def opened : Entry .strings :=
  ⟨⟨"opened", by decide⟩, OrderedMap.ofList [(greek, "Ανοιχτό"), (.base, "Open")]⟩

def closed : Entry .strings := ⟨⟨"closed", by decide⟩, OrderedMap.ofList [(greek, "Κλειστό")]⟩

/-- A string without any text. -/
def away : Entry .strings := ⟨⟨"away", by decide⟩, .empty⟩

def settings : GeneratorSettings where
  package := ⟨"kiosk", by decide⟩
  className := ⟨"Texts", by decide⟩
  androidPackage := none
  baseRegion := greek
  output := ⟨⟨"kiosk/res"⟩, ⟨"kiosk/assets"⟩, ⟨"kiosk/src"⟩, ⟨"kiosk.json"⟩⟩

def generators : Generators := ⟨Js.plan settings.package settings.output.resources, fun _ => []⟩

/-- A tree with a file where a directory has to be made. -/
def blocked : FileTree where
  nodes := OrderedMap.ofList [(["kiosk"], .file .empty)]
  rooted := by decide

end Kiosk

/-- The second string ends the output before the first is written, and strings with all they need
can only fail to be written. -/
theorem Generators.perform_localized_kiosk :
    (∀ t, (Kiosk.generators.resources .strings [Kiosk.opened, Kiosk.closed, Kiosk.away]).perform.run
      t = (.error (.missingBaseLocale "js" .strings Kiosk.closed.key), t)) ∧
    ∃ o fault s, .ok o ∈ Kiosk.generators.resources .strings [Kiosk.opened] ∧
      (Kiosk.generators.resources .strings [Kiosk.opened]).perform.run Kiosk.blocked =
        (.error (.unwritable o.path fault), s) := by
  have hgenerators : Generators.ofPlatform Kiosk.settings .js = .ok Kiosk.generators := rfl
  refine ⟨fun t => ?_, ?_⟩
  · obtain ⟨before, e, after, hes, hbefore, he, hrun⟩ :=
      (Generators.perform_localized hgenerators (.inr (.inr rfl)) (.inl rfl)
        [Kiosk.opened, Kiosk.closed, Kiosk.away] t).1 ⟨Kiosk.closed, by simp, by decide⟩
    have hclosed : e = Kiosk.closed := by
      rcases before with _ | ⟨d, _ | ⟨d', before⟩⟩
      case nil =>
        obtain ⟨rfl, -⟩ := List.cons.inj hes
        exact absurd (by decide) he
      case cons.nil => exact (List.cons.inj (List.cons.inj hes).2).1.symm
      case cons.cons =>
        obtain ⟨rfl, -⟩ := List.cons.inj (List.cons.inj hes).2
        exact absurd (hbefore Kiosk.closed (by simp)) (by decide)
    rw [hrun, hclosed]
    rfl
  · have hfails : ((Kiosk.generators.resources .strings [Kiosk.opened]).perform.run
        Kiosk.blocked).1.isOk = false := by decide
    cases hrun : (Kiosk.generators.resources .strings [Kiosk.opened]).perform.run Kiosk.blocked with
    | mk result s =>
      rw [hrun] at hfails
      cases result with
      | ok paths => cases hfails
      | error error =>
        obtain ⟨o, ho, fault, rfl, -⟩ :=
          (Generators.perform_localized hgenerators (.inr (.inr rfl)) (.inl rfl) [Kiosk.opened]
            Kiosk.blocked).2 (by decide) error s hrun
        exact ⟨o, fault, s, ho, rfl⟩

end Native

end ResourceCompiler
