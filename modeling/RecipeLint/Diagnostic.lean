import RecipeLint.Span.Excerpt

/-!
# Diagnostics

A diagnostic is a message about a span of a text, with a severity and perhaps a replacement that
would settle it.
-/

namespace RecipeLint

inductive Severity where
  | note
  | warning
  | error
deriving DecidableEq

namespace Severity

def all : List Severity := [note, warning, error]

def rank : Severity → Nat
  | note => 0
  | warning => 1
  | error => 2

def above (s : Severity) : List Severity :=
  all.filter fun t => s.rank < t.rank

def name : Severity → String
  | note => "note"
  | warning => "warning"
  | error => "error"

def tag : Severity → String
  | note => "NOTE"
  | warning => "WARN"
  | error => "ERROR"

end Severity

structure Fix where
  span : Span
  replacement : Text
deriving DecidableEq

/-- The text with the span replaced, if both ends of the span are positions of the text. -/
def Fix.applied? (fix : Fix) (text : Text) : Option Text :=
  match Text.splitAtByte? fix.span.start text, Text.splitAtByte? fix.span.stop text with
  | some (before, _), some (_, after) => some (before ++ fix.replacement ++ after)
  | _, _ => none

def Fix.shift (offset : Nat) (fix : Fix) : Fix :=
  { fix with span := fix.span.shift offset }

structure Diagnostic where
  severity : Severity
  message : String
  span : Span
  fix? : Option Fix
deriving DecidableEq

namespace Diagnostic

def shift (offset : Nat) (d : Diagnostic) : Diagnostic :=
  { d with span := d.span.shift offset, fix? := d.fix?.map (Fix.shift offset) }

def summary (d : Diagnostic) : String :=
  s!"{d.severity.name}: {d.message}"

def render? (d : Diagnostic) (text : Text) : Option Text :=
  d.span.block? text d.severity.name.toList d.message.toList

def fixed? (d : Diagnostic) (text : Text) : Option Text :=
  d.fix?.bind (Fix.applied? · text)

end Diagnostic

end RecipeLint
