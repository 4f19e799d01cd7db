import RecipeLint.Overlay
import RecipeLint.Toml.Document

/-!
# Overlays in documents

An overlay is written as a TOML document. Its form is checked as a whole, without a look at what its
names mean.
-/

namespace RecipeLint

namespace Overlay

open Toml

def boolean? : Value → Option Bool
  | .boolean value => some value
  | _ => none

def string? : Value → Option Text
  | .string text => some text
  | _ => none

/-- The value of a key, which may be missing but must be of the right form. -/
def member? {α : Type} (read : Value → Option α) (key : String) (entries : Entries) :
    Option (Option α) :=
  match Entries.get? key.toList entries with
  | none => some none
  | some value => (read value).map some

/-- A declaration: the name of a type, or a table with it. Other keys of the table are left
alone. -/
def declaration? : Value → Option Declaration
  | .string basic => some (.short basic)
  | value => do
    let entries ← value.entries?
    let basic ← (Entries.get? "type".toList entries).bind string?
    let list ← member? boolean? "list" entries
    let guessed ← member? boolean? "guessed" entries
    let permissions? ← member? (fun
      | .array items => items.mapM string?
      | _ => none) "permissions" entries
    return .full basic (list.getD false) (guessed.getD false) permissions?

def hasOnly (keys : List String) (entries : Entries) : Bool :=
  entries.all fun entry => keys.any fun key => key.toList == entry.1

/-- The settings: a table with either of them, or an array with both. -/
def settings? : Value → Option (Option Bool × Option Bool)
  | .array (.boolean quoting :: .boolean style :: _) => some (some quoting, some style)
  | value => do
    let entries ← value.entries?
    if hasOnly ["warn_quoting", "warn_style"] entries then
      return (← member? boolean? "warn_quoting" entries,
        ← member? boolean? "warn_style" entries)
    else none

def declarations? (value : Value) : Option (List (Text × Declaration)) := do
  let entries ← value.entries?
  entries.mapM fun (name, value) => (declaration? value).map (name, ·)

def ofDocument? (entries : Entries) : Option Overlay :=
  if hasOnly ["settings", "vars"] entries then do
    let settings ← member? settings? "settings" entries
    let declarations ← member? declarations? "vars" entries
    let (quoting, style) := settings.getD (none, none)
    return ⟨quoting, style, declarations.getD []⟩
  else none

def read? (text : Text) : Option Overlay :=
  (document? text).bind ofDocument?

end Overlay

end RecipeLint
