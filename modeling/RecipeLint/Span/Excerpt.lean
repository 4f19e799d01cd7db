import RecipeLint.Span

/-!
# Excerpts

Ways to show a span to a reader: an underlined excerpt of one line, the line and column where the
span starts, and a block with both. Lines are counted from one, columns in characters. None of
them exists when the span starts inside a character.
-/

namespace RecipeLint.Span

/-- The text before the span and the text from its start on. A start beyond the end counts as the
end. -/
def around? (s : Span) (text : Text) : Option (Text × Text) :=
  Text.splitAtByte? (min s.start (Text.byteSize text)) text

/-- How many carets underline some characters: at least one. -/
def caretCount (characters : Text) : Nat :=
  max 1 characters.length

def underline (column : Nat) (characters : Text) : Text :=
  List.replicate column ' ' ++ List.replicate (caretCount characters) '^'

/-- The last `count` characters. A count of zero sets no bound. -/
def lastCharacters (count : Nat) (text : Text) : Text :=
  if count = 0 then text else text.drop (text.length - count)

/-- The first `count` characters. A count of zero sets no bound. -/
def firstCharacters (count : Nat) (text : Text) : Text :=
  if count = 0 then text else text.take count

/-- How many characters are to be shown from the start of the span on: as many as it has bytes, and
`context + 1` more. The sum is one of words of 64 bits, and starts over at zero when it is too
large for one. -/
def reach (s : Span) (context : Nat) : Nat :=
  (s.size + context + 1) % UInt64.size

/-- The span in its surroundings, with carets underneath. Before the span stand at most `context`
characters, or all if `context` is zero. -/
def excerpt? (s : Span) (context : Nat) (text : Text) : Option Text :=
  (s.around? text).map fun (before, after) =>
    let before := lastCharacters context before
    before ++ firstCharacters (s.reach context) after ++
      '\n' :: underline before.length (s.slice text)

structure Location where
  /-- The number of the line, from one. -/
  line : Nat
  /-- Characters before the place in its line. -/
  column : Nat
  content : Text
deriving DecidableEq

def locate? (s : Span) (text : Text) : Option Location :=
  (s.around? text).map fun (before, after) =>
    let head := (before.reverse.takeWhile (· != '\n')).reverse
    { line := before.count '\n' + 1
      column := head.length
      content := head ++ after.takeWhile (· != '\n') }

/-- A message above the line that it is about, with the part of the span in that line
underlined. -/
def block? (s : Span) (text label message : Text) : Option Text :=
  (s.locate? text).map fun place =>
    let number := Text.ofNat place.line
    label ++ ": ".toList ++ message ++ "\n  --> line ".toList ++ number ++
      ", column ".toList ++ Text.ofNat (place.column + 1) ++ "\n   |\n".toList ++
      number.leftpad 3 ' ' ++ " | ".toList ++ place.content ++ "\n   | ".toList ++
      underline place.column ((s.slice text).takeWhile (· != '\n'))

end RecipeLint.Span
