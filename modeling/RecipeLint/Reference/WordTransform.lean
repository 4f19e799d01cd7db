import RecipeLint.Text.Basic

/-!
# Word transforms and assignments in modifier chains

Modifiers that are spelled by a fixed name: those that change each word of a value, or the list of
words, and those that assign to the variable.
-/

namespace RecipeLint

/-- A modifier that changes words and takes no argument. -/
inductive WordTransform where
  | suffix
  | head
  | literal
  | sort
  | shuffle
  | sortNumeric
  | sortReverse
  | path
  | root
  | tail
  | shell
  | absolute
  | lower
  | upper
  | singleWord
  | words
  | unique
deriving DecidableEq

namespace WordTransform

def all : List WordTransform :=
  [suffix, head, literal, sort, shuffle, sortNumeric, sortReverse, path, root, tail, shell,
    absolute, lower, upper, singleWord, words, unique]

def letters : WordTransform → Text
  | suffix => ['E']
  | head => ['H']
  | literal => ['L']
  | sort => ['O']
  | shuffle => ['O', 'x']
  | sortNumeric => ['O', 'n']
  | sortReverse => ['O', 'r']
  | path => ['P']
  | root => ['R']
  | tail => ['T']
  | shell => ['s', 'h']
  | absolute => ['t', 'A']
  | lower => ['t', 'l']
  | upper => ['t', 'u']
  | singleWord => ['t', 'W']
  | words => ['t', 'w']
  | unique => ['u']

def ofLetters? (word : Text) : Option WordTransform :=
  all.find? fun transform => transform.letters == word

def name : WordTransform → String
  | suffix => "suffix"
  | head => "head"
  | literal => "literal"
  | sort => "sort"
  | shuffle => "shuffle"
  | sortNumeric => "sort_numeric"
  | sortReverse => "sort_reverse"
  | path => "path"
  | root => "root"
  | tail => "tail"
  | shell => "shell"
  | absolute => "absolute"
  | lower => "lower"
  | upper => "upper"
  | singleWord => "single_word"
  | words => "words"
  | unique => "unique"

theorem ofLetters?_letters (transform : WordTransform) :
    ofLetters? transform.letters = some transform := by
  cases transform <;> decide

theorem letters_of_ofLetters? {word : Text} {transform : WordTransform}
    (h : ofLetters? word = some transform) : transform.letters = word := by
  simpa using List.find?_some h

end WordTransform

inductive Assigning where
  | set
  | setDefault
  | append
  | setShell
deriving DecidableEq

namespace Assigning

def all : List Assigning := [set, setDefault, append, setShell]

/-- The operator behind the colon that starts the modifier. -/
def symbol : Assigning → Text
  | set => [':', '=']
  | setDefault => [':', '?', '=']
  | append => [':', '+', '=']
  | setShell => [':', '!', '=']

def name : Assigning → String
  | set => "set"
  | setDefault => "set_default"
  | append => "append"
  | setShell => "set_shell"

end Assigning

end RecipeLint
