import RecipeLint.Text.Basic

/-!
# Arguments

The words of a command line are files, flags and parameters with their values. A parameter takes
its value from its own word or from the next one; a next word that looks like an option is no
value. After the word `--` there are only files.
-/

namespace RecipeLint.CommandLine

inductive Parameter where
  | context
  | assigned
  | types
  | start
  | output
deriving DecidableEq

namespace Parameter

def all : List Parameter :=
  [context, assigned, types, start, output]

def longName : Parameter → String
  | context => "context"
  | assigned => "var"
  | types => "types"
  | start => "start"
  | output => "output"

def letter? : Parameter → Option Char
  | context => some 'c'
  | output => some 'o'
  | assigned | types | start => none

end Parameter

inductive Flag where
  | showSource
  | dump
  | help
  | version
deriving DecidableEq

namespace Flag

def all : List Flag :=
  [showSource, dump, help, version]

def longName : Flag → String
  | showSource => "show-source"
  | dump => "dump"
  | help => "help"
  | version => "version"

def letter? : Flag → Option Char
  | help => some 'h'
  | version => some 'V'
  | showSource | dump => none

end Flag

inductive Argument where
  | file (name : Text)
  | flag (flag : Flag)
  | parameter (parameter : Parameter) (value : Text)
  /-- A word that stands for nothing, or a parameter without its value. -/
  | malformed
deriving DecidableEq

/-- What a word says when it is not the value of the word before. -/
inductive WordForm where
  | separator
  | complete (argument : Argument)
  /-- A parameter with its value in the next word. -/
  | awaiting (parameter : Parameter)

namespace WordForm

def ofLong (rest : Text) : WordForm :=
  let name := rest.takeWhile (· != '=')
  let value? := (rest.dropWhile (· != '=')).tail?
  match Parameter.all.find? (·.longName.toList == name),
    Flag.all.find? (·.longName.toList == name), value? with
  | some parameter, _, some value => complete (.parameter parameter value)
  | some parameter, _, none => awaiting parameter
  | none, some flag, none => complete (.flag flag)
  | none, _, _ => complete .malformed

/-- A letter behind one dash, perhaps with a value behind it, with or without `=`. What stands
behind the letter of a flag does not matter, since each of these flags ends the reading. -/
def ofLetter (letter : Char) (rest : Text) : WordForm :=
  match Parameter.all.find? (·.letter? == some letter),
    Flag.all.find? (·.letter? == some letter), rest with
  | some parameter, _, [] => awaiting parameter
  | some parameter, _, '=' :: value => complete (.parameter parameter value)
  | some parameter, _, value => complete (.parameter parameter value)
  | none, some flag, _ => complete (.flag flag)
  | none, none, _ => complete .malformed

/-- What a word says. One dash alone is the name of a file. -/
def of : Text → WordForm
  | ['-', '-'] => separator
  | '-' :: '-' :: rest => ofLong rest
  | '-' :: letter :: rest => ofLetter letter rest
  | word => complete (.file word)

end WordForm

namespace Argument

def looksLikeOption : Text → Bool
  | '-' :: _ :: _ => true
  | _ => false

/-- The arguments that some words make up, behind a parameter that awaits its value, if there is
one. -/
def ofWordsAfter : Option Parameter → List Text → List Argument
  | none, [] => []
  | some _, [] => [malformed]
  | some waiting, word :: words =>
    if looksLikeOption word then [malformed]
    else parameter waiting word :: ofWordsAfter none words
  | none, word :: words =>
    match WordForm.of word with
    | .separator => words.map file
    | .complete argument => argument :: ofWordsAfter none words
    | .awaiting waiting => ofWordsAfter (some waiting) words

/-- The arguments on a command line, up to a parameter without its value. -/
def ofWords (words : List Text) : List Argument :=
  ofWordsAfter none words

end Argument

end RecipeLint.CommandLine
