import RecipeLint.Operator
import RecipeLint.Reference.Basic

/-!
# Atoms

The smallest pieces of shell text. An atom knows the quoting state in which it was read; the state
behind it follows from its characters.
-/

namespace RecipeLint

inductive AtomKind where
  | space
  /-- Literal characters, quotes and escapes. -/
  | text
  | reference (r : Reference)
  | shellVariable (name : Text)
  | operator (op : Operator)
  | comment

structure Atom where
  kind : AtomKind
  text : Text
  span : Span
  /-- The state in which it was read. -/
  quoting : Quoting

namespace AtomKind

def isText : AtomKind → Bool
  | text => true
  | _ => false

/-- Blanks, operators and comments stand between words. -/
def isSeparator : AtomKind → Bool
  | space | operator _ | comment => true
  | _ => false

def reference? : AtomKind → Option Reference
  | reference r => some r
  | _ => none

end AtomKind

namespace Atom

def reference? (a : Atom) : Option Reference :=
  a.kind.reference?

def quoteTo? (a : Atom) : Option Quoting :=
  match a.kind, a.text with
  | .text, [c] => a.quoting.next? c
  | _, _ => none

def isQuote (a : Atom) : Bool :=
  a.quoteTo?.isSome

def quotingBehind (a : Atom) : Quoting :=
  a.quoteTo?.getD a.quoting

/-- Whether it stands between words of the line itself. -/
def isBetweenWords (a : Atom) : Bool :=
  a.quoting == .plain && a.kind.isSeparator

end Atom

end RecipeLint
