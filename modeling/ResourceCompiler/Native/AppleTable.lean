import ResourceCompiler.Native.Plan
import ResourceCompiler.Native.PropertyList

/-!
# Apple string tables

Tables of strings and plurals in directories by locale. The values of the base locale make up a
table of their own and also stand in for the region that the bundle is developed in, where that has
no value.

## Main definitions

* `Apple.byTable`: localized values arranged by table.
* `Apple.escapeLiteral`: a text between quotes.
* `Apple.textPlan`: the output for strings.
* `Apple.pluralPlan`: the output for plurals.
-/

namespace ResourceCompiler.Native.Apple

/-- The name of the platform in faults. -/
def platform : String := "apple"

/-- The tables that a value for a locale goes to: that of the locale, and for the base also that of
the region, unless the region has a value of its own. -/
def tablesOf (region : Locale) (regionHasValue : Bool) (locale : Locale) : List Locale :=
  if locale = .base ∧ !regionHasValue then [.base, region] else [locale]

/-- Localized values arranged by table, which is known by its locale. -/
def byTable {V : Type} (region : Locale) (entries : List (Key × OrderedMap Locale V)) :
    OrderedMap Locale (List (Key × V)) :=
  .group (entries.flatMap fun e => e.2.entries.flatMap fun (locale, v) =>
    (tablesOf region (e.2.contains region) locale).map fun table => (table, (e.1, v)))

/-- The directory of a table. -/
def directory : Locale → String
  | .base => "Base.lproj"
  | l => l.text ++ ".lproj"

/-! ### Strings -/

/-- A character between quotes. -/
def escapeChar (c : Char) : List Char :=
  if c = '\\' ∨ c = '"' then ['\\', c]
  else if c = '\n' then ['\\', 'n']
  else if c = '\t' then ['\\', 't']
  else [c]

/-- A text as it stands between quotes. -/
def escapeLiteral (cs : List Char) : List Char := cs.flatMap escapeChar

/-- `escapeLiteral` on strings. -/
def escape (s : String) : String := String.ofList (escapeLiteral s.toList)

/-- An entry of a table of strings. -/
def stringLine (e : Key × String) : String :=
  "\"" ++ e.1.text ++ "\" = \"" ++ escape e.2 ++ "\";\n"

/-- The output for strings. -/
def textPlan (region : Locale) (resources : Path) (entries : List (Entry .strings)) : Plan :=
  (byTable region (stringValues entries)).entries.map fun (table, items) =>
    .ok (.document (resources / directory table / "Localizable.strings")
      (String.join (items.map stringLine)))

/-! ### Plurals -/

/-- An entry of a table of plurals. -/
def pluralLines (e : Key × PluralForms) : String :=
  "    <key>" ++ e.1.text ++ "</key>\n    <dict>\n"
    ++ PropertyList.entry "        " "NSStringLocalizedFormatKey" "%#@value@"
    ++ "        <key>value</key>\n        <dict>\n"
    ++ PropertyList.entry "            " "NSStringFormatSpecTypeKey" "NSStringPluralRuleType"
    ++ PropertyList.entry "            " "NSStringFormatValueTypeKey" "d"
    ++ String.join (e.2.entries.map fun (q, text) =>
      PropertyList.entry "            " q.text text)
    ++ "        </dict>\n    </dict>\n"

/-- The output for plurals. -/
def pluralPlan (region : Locale) (resources : Path) (entries : List (Entry .plurals)) : Plan :=
  (byTable region (pluralValues entries)).entries.map fun (table, items) =>
    .ok (.document (resources / directory table / "Localizable.stringsdict")
      (PropertyList.document (String.join (items.map pluralLines))))

end ResourceCompiler.Native.Apple
