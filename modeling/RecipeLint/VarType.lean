import RecipeLint.Text.Basic

/-!
# Types of variables

A type says what kind of value a variable holds, as far as quoting goes, and what may be done with
the variable.
-/

namespace RecipeLint

/-- What one value is. The first group are single shell words without special characters; the
others are free text and shell fragments. -/
inductive BasicType where
  | identifier
  | filename
  | fileMask
  | pathname
  | pathMask
  | pkgName
  | pkgPath
  | version
  | option
  | tool
  | user
  | integer
  | yes
  | yesNo
  | shellCommand
  | shellCommands
  | shellWord
  | cFlag
  | ldFlag
  | comment
  | message
  | sedCommands
  | url
  | unknown
deriving DecidableEq

namespace BasicType

def all : List BasicType :=
  [identifier, filename, fileMask, pathname, pathMask, pkgName, pkgPath, version, option, tool,
    user, integer, yes, yesNo, shellCommand, shellCommands, shellWord, cFlag, ldFlag, comment,
    message, sedCommands, url, unknown]

def name : BasicType → String
  | identifier => "Identifier"
  | filename => "Filename"
  | fileMask => "FileMask"
  | pathname => "Pathname"
  | pathMask => "PathMask"
  | pkgName => "PkgName"
  | pkgPath => "PkgPath"
  | version => "Version"
  | option => "Option"
  | tool => "Tool"
  | user => "User"
  | integer => "Integer"
  | yes => "Yes"
  | yesNo => "YesNo"
  | shellCommand => "ShellCommand"
  | shellCommands => "ShellCommands"
  | shellWord => "ShellWord"
  | cFlag => "CFlag"
  | ldFlag => "LdFlag"
  | comment => "Comment"
  | message => "Message"
  | sedCommands => "SedCommands"
  | url => "Url"
  | unknown => "Unknown"

def ofName? (name : Text) : Option BasicType :=
  all.find? fun t => t.name.toList == name

/-- Values never hold blanks, quotes or other characters that the shell interprets. -/
def isPlainWord : BasicType → Bool
  | identifier | filename | fileMask | pathname | pathMask | pkgName | pkgPath | version | option
  | tool | user | integer | yes | yesNo => true
  | _ => false

def isShellCommand : BasicType → Bool
  | shellCommand | shellCommands => true
  | _ => false

/-- Values are shell code or sets of flags, of several words each. -/
def isManyWords : BasicType → Bool
  | shellCommand | shellCommands | cFlag | ldFlag | sedCommands => true
  | _ => false

theorem ofName?_name (t : BasicType) : ofName? t.name.toList = some t := by
  cases t <;> decide

end BasicType

inductive Permission where
  | set
  | setDefault
  | append
  | use
  | useAtLoadTime
deriving DecidableEq

namespace Permission

def all : List Permission := [set, setDefault, append, use, useAtLoadTime]

def name : Permission → String
  | set => "set"
  | setDefault => "set_default"
  | append => "append"
  | use => "use"
  | useAtLoadTime => "use_loadtime"

def ofName? (name : Text) : Option Permission :=
  all.find? fun p => p.name.toList == name

end Permission

structure Permissions where
  set : Bool
  setDefault : Bool
  append : Bool
  use : Bool
  useAtLoadTime : Bool
deriving DecidableEq

namespace Permissions

def unrestricted : Permissions := ⟨true, true, true, true, true⟩

def ofList (granted : List Permission) : Permissions where
  set := granted.contains .set
  setDefault := granted.contains .setDefault
  append := granted.contains .append
  use := granted.contains .use
  useAtLoadTime := granted.contains .useAtLoadTime

def grants (p : Permissions) : Permission → Bool
  | .set => p.set
  | .setDefault => p.setDefault
  | .append => p.append
  | .use => p.use
  | .useAtLoadTime => p.useAtLoadTime

/-- The permissions of some names, or the first name that is none. -/
def ofNames (names : List Text) : Except Text Permissions :=
  ofList <$> names.mapM fun name =>
    match Permission.ofName? name with
    | some p => .ok p
    | none => .error name

theorem grants_ofList (granted : List Permission) (p : Permission) :
    (ofList granted).grants p = granted.contains p := by
  cases p <;> rfl

end Permissions

structure VarType where
  basic : BasicType
  /-- A list of such values, with blanks between them. -/
  list : Bool
  /-- Inferred from the name, not declared. -/
  guessed : Bool
  permissions : Permissions
deriving DecidableEq

namespace VarType

def ofBasic (basic : BasicType) (list : Bool) : VarType :=
  ⟨basic, list, false, .unrestricted⟩

/-- Whether the shell is meant to split a value into several words. -/
def isManyWords (t : VarType) : Bool :=
  t.list || t.basic.isManyWords

def display (t : VarType) : String :=
  if t.list then s!"List of {t.basic.name}" else t.basic.name

end VarType

end RecipeLint
