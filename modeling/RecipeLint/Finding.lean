import RecipeLint.Diagnostic
import RecipeLint.Quoting

/-!
# Findings

What can be found in a shell text, by its cause. Three groups matter: failures, where text could
not be read as intended and reading went on behind it; the style finding, which a setting turns
off; and the quoting findings, which another setting turns off.
-/

namespace RecipeLint

inductive ReferenceFailure where
  | missingClose (closing : Char) (name : Text)
  | invalidModifier (modifier name : Text)
  /-- A dollar sign before a character that starts no reference. -/
  | loneDollar (next : Char)
  /-- More references inside one another than are followed. -/
  | nestingTooDeep (limit : Nat)
deriving DecidableEq

inductive Cause where
  | badReference (failure : ReferenceFailure)
  /-- The text ended in this state, with a quote open. -/
  | unterminatedQuote (opener : Char) (quoting : Quoting)
  /-- A character without a meaning in this state. -/
  | unexpectedChar (char : Char) (quoting : Quoting)
  | trailingBackslash
  /-- A one-character reference, and the longer name that it seems to be meant for. -/
  | ambiguousName (apparent : Text)
  /-- A variable name that goes on behind its last plausible character. -/
  | invalidNamePart (valid invalid : Text)
  | invalidSeparator (separator name : Text)
  /-- A loop modifier without its last mark. -/
  | unclosedLoop (name loopVariable : Text)
  /-- Round parentheses around a name and its modifiers. -/
  | roundParentheses (name modifiers : Text)
  | loadTimeUse (name : Text)
  /-- Needs quoting, but stands in quotes. -/
  | quotedInQuotes (suggestion : Text)
  /-- Needs quoting, but is only a part of a word. -/
  | unquotedPart (name : Text)
  | unquoted (current suggestion : Text)
  | needlessQuoting (suggestion : Text)
  | quotedInDoubleQuotes
deriving DecidableEq

abbrev Finding := Located Cause

/-- The canonical spelling of a reference with this name and these modifiers. -/
def bracedSpelling (name modifiers : Text) : Text :=
  '$' :: '\x7b' :: name ++ modifiers ++ ['\x7d']

def openerName : Char → String
  | '"' => "double quote"
  | '\x27' => "single quote"
  | _ => "backtick"

def ReferenceFailure.message : ReferenceFailure → String
  | missingClose closing name => s!"Missing closing \"{closing}\" for \"{name.str}\"."
  | invalidModifier modifier name =>
    s!"Invalid variable modifier \"{modifier.str}\" for \"{name.str}\"."
  | loneDollar next =>
    s!"Invalid \"$\" followed by \"{next}\"; write \"$$\" for a literal dollar sign."
  | nestingTooDeep limit => s!"Variable references nested more than {limit} levels deep."

namespace Cause

/-- Text that could not be read, so that reading went on behind it. -/
def isFailure : Cause → Bool
  | badReference _ | unterminatedQuote .. | unexpectedChar .. | trailingBackslash => true
  | _ => false

/-- The spelling of a reference that reads well. -/
def isStyle : Cause → Bool
  | roundParentheses .. => true
  | _ => false

/-- Whether a reference is quoted as it should be. -/
def isQuoting : Cause → Bool
  | quotedInQuotes _ | unquotedPart _ | unquoted .. | needlessQuoting _ | quotedInDoubleQuotes =>
    true
  | _ => false

/-- An open quote and a name that the shell would not see as intended are errors, and a needless
modifier deserves a note only. -/
def severity : Cause → Severity
  | unterminatedQuote .. => .error
  | ambiguousName apparent => if 1 < apparent.length then .error else .warning
  | needlessQuoting _ => .note
  | _ => .warning

def message : Cause → String
  | badReference failure => failure.message
  | unterminatedQuote opener quoting =>
    s!"Unterminated {openerName opener} at end of shell text (quoting state {quoting.code})."
  | unexpectedChar char quoting => s!"Unexpected \"{char}\" in quoting state {quoting.code}."
  | trailingBackslash => "Backslash at end of shell text."
  | ambiguousName apparent =>
    s!"${apparent.str} is ambiguous. Use {(bracedSpelling apparent []).str} if you mean a Make " ++
      s!"variable or $${apparent.str} if you mean a shell variable."
  | invalidNamePart valid invalid =>
    s!"Invalid part \"{invalid.str}\" after variable name \"{valid.str}\"."
  | invalidSeparator separator name =>
    s!"Invalid separator \"{separator.str}\" for :ts modifier of \"{name.str}\"."
  | unclosedLoop name loopVariable =>
    let loop := bracedSpelling name (":@".toList ++ loopVariable ++ "@...@".toList)
    s!"Modifier {loop.str} is missing the final \"@\"."
  | roundParentheses name _ =>
    s!"Please use curly braces \x7b\x7d instead of round parentheses () for {name.str}."
  | loadTimeUse name => s!"{name.str} should not be used at load time."
  | quotedInQuotes suggestion =>
    s!"Please move {suggestion.str} outside of any quoting characters."
  | unquotedPart name =>
    s!"The variable {name.str} should be quoted as part of a shell word."
  | unquoted current suggestion => s!"Please use {suggestion.str} instead of {current.str}."
  | needlessQuoting suggestion =>
    s!"The :Q modifier isn't necessary for {suggestion.str} here."
  | quotedInDoubleQuotes => "Please don't use the :Q modifier in double quotes."

def replacement? : Cause → Option Text
  | roundParentheses name modifiers => some (bracedSpelling name modifiers)
  | unquoted _ suggestion => some suggestion
  | needlessQuoting suggestion => some suggestion
  | _ => none

end Cause

/-- The finding as it is shown. A replacement is for the whole span. -/
def Finding.diagnostic (f : Finding) : Diagnostic where
  severity := f.value.severity
  message := f.value.message
  span := f.span
  fix? := f.value.replacement?.map fun replacement => ⟨f.span, replacement⟩

theorem Finding.diagnostic_shift (n : Nat) (f : Finding) :
    Finding.diagnostic (f.shift n) = (Finding.diagnostic f).shift n := by
  cases h : f.value.replacement? <;> simp [diagnostic, Located.shift, Diagnostic.shift, h, Fix.shift]

end RecipeLint
