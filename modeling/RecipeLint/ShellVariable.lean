import RecipeLint.Text.Basic

/-!
# Shell variables

Make reduces two dollar signs to one, so a shell variable is written `$$name`, `$${name}`,
`$${name:-word}`, `$$1` or, for the process number, `$$$$`.
-/

namespace RecipeLint.ShellVariable

/-- The operators between the name and the word of an expansion. One that starts with another comes
first. -/
def expansions : List Text :=
  ["##", "%%", ":-", ":=", ":?", ":+", "#", "%", "-", "=", "?", "+"].map String.toList

/-- The names of one character that is no letter. -/
def isSpecialName (c : Char) : Bool :=
  c.isDigit || "@*#?!-".toList.contains c

def isWordChar (c : Char) : Bool :=
  !"$\\\x7b\x7d".toList.contains c

/-- The number of characters of an operator and its word, zero if there is no operator. -/
def expansionLength (text : Text) : Nat :=
  match expansions.find? (·.isPrefixOf text) with
  | some op => op.length + ((text.drop op.length).takeWhile isWordChar).length
  | none => 0

/-- The name of a variable behind an opening brace, and the number of characters up to the closing
one. -/
def readBraced? (text : Text) : Option (Nat × Text) :=
  let name := text.takeWhile isIdentifierChar
  let inside := name.length + expansionLength (text.drop name.length)
  match name, text.drop inside with
  | _ :: _, '\x7d' :: _ => some (inside + 1, name)
  | _, _ => none

/-- The variable that two dollar signs start: how many characters it takes, and its name. -/
def read? : Text → Option (Nat × Text)
  | '$' :: '$' :: '$' :: '$' :: _ => some (4, ['$'])
  | '$' :: '$' :: '\x7b' :: rest => (readBraced? rest).map fun (taken, name) => (taken + 3, name)
  | '$' :: '$' :: c :: rest =>
    if c.isAlpha || c == '_' then
      let more := rest.takeWhile isIdentifierChar
      some (more.length + 3, c :: more)
    else if isSpecialName c then some (3, [c])
    else none
  | _ => none

end RecipeLint.ShellVariable
