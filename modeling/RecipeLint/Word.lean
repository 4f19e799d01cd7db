import RecipeLint.Atom

/-!
# Words

A word is a run of atoms between blanks, operators and comments of the line itself. Inside quotes
and backticks those are a part of the word.
-/

namespace RecipeLint

structure Word where
  atoms : List Atom
  span : Span
  /-- Whether all quotes that are opened in it are closed in it. -/
  closed : Bool

/-- Reduces each pair of dollar signs to one. -/
def halveDollars : Text → Text
  | '$' :: '$' :: rest => '$' :: halveDollars rest
  | c :: rest => c :: halveDollars rest
  | [] => []

/-- What the shell makes of an atom, if no expansion is needed to know: quotes vanish, an escape
stands for its character. -/
def Atom.value? (a : Atom) : Option Text :=
  match a.kind, a.text with
  | .reference _, _ | .shellVariable _, _ => none
  | .text, text =>
    if a.isQuote then some []
    else match text with
      | ['\\', '$', '$'] => some ['$']
      | '\\' :: rest =>
        if a.quoting.allowsEscapes then
          match rest.head?.bind a.quoting.unescape? with
          | some c => some [c]
          | none => some text
        else some (halveDollars text)
      | _ => some (halveDollars text)
  | _, text => some (halveDollars text)

namespace Word

def ofAtoms? (atoms : List Atom) (after : Quoting) : Option Word :=
  match atoms.head?, atoms.getLast? with
  | some first, some last =>
    some ⟨atoms, first.span.merge last.span, first.quoting == after⟩
  | _, _ => none

def text (w : Word) : Text :=
  w.atoms.flatMap Atom.text

/-- What the shell makes of the word, if it contains no variables. -/
def value? (w : Word) : Option Text :=
  (w.atoms.mapM Atom.value?).map List.flatten

/-- The reference that makes up the word, quotes aside. -/
def soleReference? (w : Word) : Option Reference :=
  match w.atoms.filter fun a => !a.isQuote with
  | [a] => a.reference?
  | _ => none

end Word

/-- A word, or what stands between words. Blanks are left out. -/
inductive Token where
  | word (w : Word)
  | operator (op : Operator) (span : Span)
  | comment (text : Text) (span : Span)

namespace Token

def span : Token → Span
  | word w => w.span
  | operator _ s | comment _ s => s

def ofSeparator? (a : Atom) : Option Token :=
  match a.kind with
  | .operator op => some (operator op a.span)
  | .comment => some (comment a.text a.span)
  | _ => none

def ofWord? (atoms : List Atom) (after : Quoting) : Option Token :=
  (Word.ofAtoms? atoms after).map word

/-- The tokens of some atoms that end in the state `after`, where `open` are the atoms of a word in
front of them. A word before a separator ends in the state of the separator. -/
def ofAtomsAfter (after : Quoting) (before : List Atom) : List Atom → List Token
  | [] => (ofWord? before after).toList
  | a :: atoms =>
    if a.isBetweenWords then
      (ofWord? before .plain).toList ++ (ofSeparator? a).toList ++ ofAtomsAfter after [] atoms
    else ofAtomsAfter after (before ++ [a]) atoms

def ofAtoms (atoms : List Atom) (after : Quoting) : List Token :=
  ofAtomsAfter after [] atoms

end Token

end RecipeLint
