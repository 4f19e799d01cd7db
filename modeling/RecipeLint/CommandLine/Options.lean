import RecipeLint.CommandLine.Arguments
import RecipeLint.Quoting

/-!
# Options

What a command line asks for. Arguments are looked at in order, and the first one that is out of
place, or that asks for something else than a check, settles the matter.
-/

namespace RecipeLint.CommandLine

/-- Where the lines of the input are from. -/
inductive Origin where
  | recipe
  | assignment (name : Text)
  | loop
  | condition
deriving DecidableEq

inductive Format where
  | text
  | json
deriving DecidableEq

structure Options where
  files : List Text
  origin : Origin
  types? : Option Text
  /-- The quoting state in which every line starts. -/
  start : Quoting
  format : Format
  showSource : Bool
  /-- Whether everything is shown that is known about a line. -/
  dump : Bool

inductive Request where
  | check (options : Options)
  | help
  | version
  | misused

def choice? {α : Type} (choices : List (String × α)) (name : Text) : Option α :=
  (choices.find? fun choice => choice.1.toList == name).map Prod.snd

/-- The kinds of origin, by name; that of a variable still without the variable. -/
def originChoices : List (String × (Option Text → Option Origin)) :=
  [("shell", fun _ => some .recipe), ("assign", fun name? => name?.map .assignment),
    ("for", fun _ => some .loop), ("condition", fun _ => some .condition)]

def startChoices : List (String × Quoting) :=
  [("plain", .plain), ("dquot", .double), ("squot", .single), ("backt", .backticks),
    ("dquot-backt", .doubleBackticks), ("backt-dquot", .backticksDouble),
    ("backt-squot", .backticksSingle), ("dquot-backt-dquot", .doubleBackticksDouble),
    ("dquot-backt-squot", .doubleBackticksSingle)]

def formatChoices : List (String × Format) :=
  [("text", .text), ("json", .json)]

/-- Options of which some may still be missing. -/
structure Draft where
  files : List Text := []
  origin? : Option (Option Text → Option Origin) := none
  assigned? : Option Text := none
  types? : Option Text := none
  start? : Option Quoting := none
  format? : Option Format := none
  showSource : Bool := false
  dump : Bool := false

namespace Draft

/-- Fills an empty place with a valid value. -/
def fill? {α : Type} (place value? : Option α) (put : α → Draft) : Option Draft :=
  match place, value? with
  | none, some value => some (put value)
  | _, _ => none

/-- The draft with a parameter, if its value is valid and none was given before. -/
def set? (d : Draft) (value : Text) : Parameter → Option Draft
  | .context => fill? d.origin? (choice? originChoices value) ({ d with origin? := some · })
  | .assigned => fill? d.assigned? (some value) ({ d with assigned? := some · })
  | .types =>
    fill? d.types? (if value = [] then none else some value) ({ d with types? := some · })
  | .start => fill? d.start? (choice? startChoices value) ({ d with start? := some · })
  | .output => fill? d.format? (choice? formatChoices value) ({ d with format? := some · })

/-- The options, unless the variable is missing that is assigned. -/
def options? (d : Draft) : Option Options :=
  (d.origin?.getD (fun _ => some .recipe) d.assigned?).map fun origin =>
    { files := d.files
      origin
      types? := d.types?
      start := d.start?.getD .plain
      format := d.format?.getD .text
      showSource := d.showSource
      dump := d.dump }

def request (d : Draft) : List Argument → Request
  | [] => d.options?.elim .misused .check
  | .malformed :: _ => .misused
  | .file name :: rest => request { d with files := d.files ++ [name] } rest
  | .flag .help :: _ => .help
  | .flag .version :: _ => .version
  | .flag .showSource :: rest =>
    if d.showSource then .misused else request { d with showSource := true } rest
  | .flag .dump :: rest => if d.dump then .misused else request { d with dump := true } rest
  | .parameter parameter value :: rest =>
    match d.set? value parameter with
    | none => .misused
    | some d => request d rest

end Draft

def Request.ofWords (words : List Text) : Request :=
  Draft.request {} (Argument.ofWords words)

end RecipeLint.CommandLine
