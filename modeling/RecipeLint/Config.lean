import RecipeLint.Overlay.Document
import RecipeLint.Settings
import RecipeLint.TypeTable.Builtin

/-!
# Configurations

Settings and types, onto which overlays are merged. How a text is decoded is left open: one that is
no overlay changes nothing. In one that is, a declaration with an unknown name stops the merge, and
what stands before it stays merged.
-/

namespace RecipeLint

inductive MergeError where
  /-- The text is no overlay. -/
  | malformed
  | unknownName (name : UnknownName) (variableName : Text)
deriving DecidableEq

def MergeError.message (origin : Text) : MergeError → String
  | malformed => s!"TOML parse error in {origin.str}"
  | unknownName (.type name) variableName =>
    s!"unknown type \"{name.str}\" for variable {variableName.str} in {origin.str}"
  | unknownName (.permission name) variableName =>
    s!"unknown permission \"{name.str}\" for variable {variableName.str} in {origin.str}"

structure Config where
  settings : Settings
  types : TypeTable

namespace Config

def empty : Config := ⟨.all, .empty⟩

def builtin : Config := ⟨.all, .builtin⟩

/-- Declares types in order, up to the first one with an unknown name. -/
def declare (types : TypeTable) : List (Text × Declaration) → TypeTable × Option MergeError
  | [] => (types, none)
  | (name, declaration) :: rest =>
    match declaration.resolve with
    | .ok type => declare (types.insert name type) rest
    | .error unknown => (types, some (.unknownName unknown name))

def apply (config : Config) (overlay : Overlay) : Config × Option MergeError :=
  let (types, error?) := declare config.types overlay.declarations
  ({ settings :=
      { warnQuoting := overlay.warnQuoting?.getD config.settings.warnQuoting
        warnStyle := overlay.warnStyle?.getD config.settings.warnStyle }
     types }, error?)

/-- Merges a text in some format, and says what stopped the merge, if anything did. -/
def mergeWith (config : Config) (decode : Text → Option Overlay) (text : Text) :
    Config × Option MergeError :=
  match decode text with
  | none => (config, some .malformed)
  | some overlay => config.apply overlay

def merge (config : Config) (text : Text) : Config × Option MergeError :=
  config.mergeWith Overlay.read? text

end Config

end RecipeLint
