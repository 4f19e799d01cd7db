import RecipeLint.Text.Basic

/-!
# JSON

Values and how they are laid out: two spaces for each level, one item a line, and the members of an
object in the order in which they were put.
-/

namespace RecipeLint

/-- A JSON value. All numbers are counts. -/
inductive Json where
  | null
  | bool (value : Bool)
  | number (value : Nat)
  | string (value : Text)
  | array (items : List Json)
  | object (members : List (String × Json))

namespace Json

def str (value : String) : Json := .string value.toList

def optional {α : Type} (encode : α → Json) : Option α → Json
  | none => null
  | some value => encode value

def list {α : Type} (encode : α → Json) (items : List α) : Json :=
  .array (items.map encode)

def hexByte (n : Nat) : Text :=
  [Nat.digitChar (n / 16), Nat.digitChar (n % 16)]

def escape (c : Char) : Text :=
  if c = '"' then ['\\', '"']
  else if c = '\\' then ['\\', '\\']
  else if c = '\n' then ['\\', 'n']
  else if c = '\r' then ['\\', 'r']
  else if c = '\t' then ['\\', 't']
  else if c = '\x08' then ['\\', 'b']
  else if c = '\x0c' then ['\\', 'f']
  else if c.toNat < 0x20 then "\\u00".toList ++ hexByte c.toNat
  else [c]

def quote (text : Text) : Text :=
  '"' :: text.flatMap escape ++ ['"']

def newLine (level : Nat) : Text :=
  '\n' :: List.replicate (2 * level) ' '

mutual

def layout (level : Nat) : Json → Text
  | null => "null".toList
  | bool true => "true".toList
  | bool false => "false".toList
  | number n => Text.ofNat n
  | string text => quote text
  | array [] => ['[', ']']
  | array (item :: items) =>
    '[' :: newLine (level + 1) ++ layout (level + 1) item ++ layoutItems (level + 1) items ++
      newLine level ++ [']']
  | object [] => ['\x7b', '\x7d']
  | object ((key, value) :: members) =>
    '\x7b' :: newLine (level + 1) ++ quote key.toList ++ [':', ' '] ++ layout (level + 1) value ++
      layoutMembers (level + 1) members ++ newLine level ++ ['\x7d']

def layoutItems (level : Nat) : List Json → Text
  | [] => []
  | item :: items => ',' :: newLine level ++ layout level item ++ layoutItems level items

def layoutMembers (level : Nat) : List (String × Json) → Text
  | [] => []
  | (key, value) :: members =>
    ',' :: newLine level ++ quote key.toList ++ [':', ' '] ++ layout level value ++
      layoutMembers level members

end

def pretty (value : Json) : Text :=
  layout 0 value

end Json

end RecipeLint
