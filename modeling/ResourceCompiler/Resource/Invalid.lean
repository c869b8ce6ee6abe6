/-!
# Texts that name nothing

## Main definitions

* `InvalidValue`: a text offered as a value of the domain and refused, with what it was offered as.
* `InvalidValue.message`: the wording.
-/

namespace ResourceCompiler

/-- A text that is not a value of the kind it was offered as. -/
inductive InvalidValue where
  | resourceKey (text : String)
  | locale (text : String)
  | sourceSetName (text : String)
  | packageName (text : String)
  | className (text : String)
  | scale (text : String)
  | color (text : String)
deriving DecidableEq

/-- The wording of a refusal. -/
def InvalidValue.message : InvalidValue → String
  | .resourceKey text => "invalid resource key '" ++ text ++ "': must be an identifier"
  | .locale text => "invalid locale tag '" ++ text ++ "'"
  | .sourceSetName text => "invalid source set name '" ++ text ++ "'"
  | .packageName text => "invalid package name '" ++ text ++ "'"
  | .className text => "invalid class name '" ++ text ++ "'"
  | .scale text => "invalid scale qualifier '" ++ text ++ "'"
  | .color text => "invalid color '" ++ text ++ "': expected #RRGGBB or #RRGGBBAA"

end ResourceCompiler
