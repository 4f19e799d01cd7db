import RecipeLint.Text.Basic

/-!
# Shell operators

Control operators end a simple command; redirections do not. A redirection may start with the
number of a file descriptor.
-/

namespace RecipeLint

inductive Redirection where
  | input
  | output
  | append
  | clobber
  | readWrite
  | hereDoc
  | hereDocStripTabs
  | dupInput
  | dupOutput
deriving DecidableEq

namespace Redirection

/-- All redirections. One whose symbol starts with that of another comes first. -/
def all : List Redirection :=
  [hereDocStripTabs, hereDoc, dupInput, readWrite, append, dupOutput, clobber, input, output]

def symbol : Redirection → Text
  | input => ['<']
  | output => ['>']
  | append => ['>', '>']
  | clobber => ['>', '|']
  | readWrite => ['<', '>']
  | hereDoc => ['<', '<']
  | hereDocStripTabs => ['<', '<', '-']
  | dupInput => ['<', '&']
  | dupOutput => ['>', '&']

def name : Redirection → String
  | input => "input"
  | output => "output"
  | append => "append"
  | clobber => "clobber"
  | readWrite => "read_write"
  | hereDoc => "here_doc"
  | hereDocStripTabs => "here_doc_strip_tabs"
  | dupInput => "dup_input"
  | dupOutput => "dup_output"

end Redirection

inductive Control where
  | and
  | or
  | semicolon
  | caseBreak
  | pipe
  | background
  /-- One line break or more. -/
  | newline
  | subshell
  | subshellEnd
deriving DecidableEq

namespace Control

/-- The operators that are one fixed symbol. One whose symbol starts with that of another comes
first. -/
def fixed : List Control :=
  [or, and, caseBreak, semicolon, subshell, subshellEnd, pipe, background]

def symbol : Control → Text
  | and => ['&', '&']
  | or => ['|', '|']
  | semicolon => [';']
  | caseBreak => [';', ';']
  | pipe => ['|']
  | background => ['&']
  | newline => ['\n']
  | subshell => ['(']
  | subshellEnd => [')']

def display : Control → String
  | newline => "newline"
  | c => c.symbol.str

def name : Control → String
  | and => "and"
  | or => "or"
  | semicolon => "semicolon"
  | caseBreak => "case_break"
  | pipe => "pipe"
  | background => "background"
  | newline => "newline"
  | subshell => "subshell"
  | subshellEnd => "subshell_end"

end Control

inductive Operator where
  | control (which : Control)
  | redirect (descriptor? : Option Nat) (kind : Redirection)
deriving DecidableEq

namespace Operator

def isControl : Operator → Bool
  | control _ => true
  | redirect .. => false

def display : Operator → String
  | control which => which.display
  | redirect none kind => kind.symbol.str
  | redirect (some n) kind => s!"{n}{kind.symbol.str}"

/-- The greatest number of a file descriptor: it takes 32 bits. -/
def maxDescriptor : Nat := 0xFFFFFFFF

def descriptor? (digits : Text) : Option Nat :=
  if digits.isEmpty ∨ maxDescriptor < Text.decimal digits then none
  else some (Text.decimal digits)

def readControl? (text : Text) : Option (Nat × Control) :=
  match text with
  | '\n' :: rest => some ((rest.takeWhile (· == '\n')).length + 1, .newline)
  | _ => (Control.fixed.find? (·.symbol.isPrefixOf text)).map fun c => (c.symbol.length, c)

/-- An operator at the start of a text, and how many characters it takes. Digits belong to a
redirection directly behind them. -/
def read? (text : Text) : Option (Nat × Operator) :=
  let digits := text.takeWhile Char.isDigit
  let rest := text.drop digits.length
  match Redirection.all.find? (·.symbol.isPrefixOf rest) with
  | some kind =>
    some (digits.length + kind.symbol.length, .redirect (descriptor? digits) kind)
  | none =>
    if digits.isEmpty then (readControl? text).map fun (taken, c) => (taken, .control c) else none

end Operator

end RecipeLint
