import RecipeLint.Finding
import RecipeLint.Reference.WordTransform

/-!
# References to make variables

A reference is a name and a chain of modifiers between delimiters, or one character after a dollar
sign. Names and arguments of modifiers are make text: literal characters and references in turn.

A reference does not know where it stands. The place of each reference inside another follows from
the sizes of what is written before it, so equal references have equal parts wherever they occur.
-/

namespace RecipeLint

inductive Delimiter where
  /-- The spelling `${NAME}`. -/
  | braces
  /-- The spelling `$(NAME)`, accepted but not canonical. -/
  | parentheses
  /-- The spelling `$x`, for a name of one character. -/
  | bare
deriving DecidableEq

def Delimiter.opening : Delimiter → Text
  | braces => ['\x7b']
  | parentheses => ['(']
  | bare => []

def Delimiter.closing : Delimiter → Text
  | braces => ['\x7d']
  | parentheses => [')']
  | bare => []

mutual

/-- A piece of make text. Literal characters are as written: `$$` stays `$$`. -/
inductive Part where
  | literal (text : Text)
  | reference (inner : Reference)

structure Reference where
  delimiter : Delimiter
  name : List Part
  chain : List Link
  /-- The characters of the whole reference. -/
  text : Text

inductive Modifier where
  /-- Quotes the value for use as shell words: `Q`. -/
  | quote
  /-- Keeps or drops the words that match: `Mpattern`, `Npattern`. -/
  | select (keep : Bool) (pattern : List Part)
  /-- Replaces in each word: `S/old/new/flags`, with a regular expression `C/old/new/flags`. -/
  | substitute (regex : Bool) (separator : Char) (old new : List Part) (flags : Text)
  /-- Replaces the end of each word: `old=new`. -/
  | suffix (old new : List Part)
  /-- The value of an undefined variable: `Uvalue`. -/
  | ifUnset (value : List Part)
  /-- The value of a defined variable: `Dvalue`. -/
  | ifSet (value : List Part)
  /-- Expands the body for each word: `@var@body@`, where the last mark may be missing. -/
  | forEach (loopVariable : Text) (body : List Part) (closed : Bool)
  /-- Some of the words, or their number: `[1]`, `[2..-1]`, `[#]`, `[@]`, `[*]`. -/
  | index (range : Text)
  | transform (op : WordTransform)
  /-- The separator between words: `ts` and the separator. -/
  | separator (text : Text)
  /-- Chooses by a condition: `?yes:no`. -/
  | choose (yes no : List Part)
  /-- Assigns to the variable: `:=value` and the like, behind the colon. -/
  | assign (op : Assigning) (value : List Part)
  /-- The output of a command: `!command!`. -/
  | shell (command : List Part)

inductive Link where
  /-- A colon with no modifier behind it. -/
  | empty
  | colon (modifier : Modifier)
  /-- A modifier directly behind a substitution. -/
  | joined (modifier : Modifier)

end

/-- Literal characters and references in turn. -/
abbrev MakeText := List Part

def Part.source : Part → Text
  | literal text => text
  | reference inner => inner.text

namespace MakeText

def source (text : MakeText) : Text :=
  text.flatMap Part.source

def size (text : MakeText) : Nat :=
  Text.byteSize (source text)

/-- Puts literal characters in front. No two literal parts stand side by side, and none is
empty. -/
def consLiteral (front : Text) : MakeText → MakeText
  | .literal text :: parts => .literal (front ++ text) :: parts
  | parts => if front.isEmpty then parts else .literal front :: parts

/-- The characters, if no reference is among them. -/
def literal? : MakeText → Option Text
  | [] => some []
  | [.literal text] => some text
  | _ => none

/-- Whether a character occurs outside of references. -/
def hasLiteral (c : Char) (text : MakeText) : Bool :=
  text.any fun
    | .literal chars => chars.contains c
    | .reference _ => false

/-- Splits at the first `c` that stands outside of references. -/
def cut? (c : Char) : MakeText → Option (MakeText × MakeText)
  | [] => none
  | .literal text :: parts =>
    if text.contains c then
      some (consLiteral (text.takeWhile (· != c)) [],
        consLiteral ((text.dropWhile (· != c)).drop 1) parts)
    else (cut? c parts).map fun (before, after) => (.literal text :: before, after)
  | part :: parts => (cut? c parts).map fun (before, after) => (part :: before, after)

@[simp] theorem source_nil : source [] = [] := rfl

@[simp] theorem source_cons (part : Part) (parts : MakeText) :
    source (part :: parts) = part.source ++ source parts := rfl

@[simp] theorem source_consLiteral (front : Text) (text : MakeText) :
    source (consLiteral front text) = front ++ source text := by
  unfold consLiteral
  split
  · simp [Part.source]
  · split
    · simp_all
    · simp [Part.source]

end MakeText

namespace Modifier

/-- Substitutions may be followed by a modifier without a colon. -/
def isSubstitution : Modifier → Bool
  | substitute .. => true
  | _ => false

def isQuote : Modifier → Bool
  | quote => true
  | _ => false

/-- The make text among its arguments, in order. -/
def arguments : Modifier → List MakeText
  | select _ text | ifUnset text | ifSet text | forEach _ text _ | assign _ text | shell text =>
    [text]
  | substitute _ _ first second _ | suffix first second | choose first second => [first, second]
  | quote | index _ | transform _ | separator _ => []

/-- How many bytes stand before its first argument. -/
def firstOffset : Modifier → Nat
  | substitute _ c .. => 1 + c.utf8Size
  | forEach loopVariable .. => 2 + Text.byteSize loopVariable
  | assign op _ => Text.byteSize op.symbol
  | suffix .. => 0
  | _ => 1

def secondOffset : Modifier → Nat
  | substitute _ c old _ _ => 1 + c.utf8Size + MakeText.size old + c.utf8Size
  | suffix first _ => MakeText.size first + 1
  | choose first _ => 1 + MakeText.size first + 1
  | _ => 0

def source : Modifier → Text
  | quote => ['Q']
  | select keep pattern => (if keep then 'M' else 'N') :: MakeText.source pattern
  | substitute regex c old new flags =>
    (if regex then 'C' else 'S') :: c :: MakeText.source old ++ c :: MakeText.source new ++
      c :: flags
  | suffix old new => MakeText.source old ++ '=' :: MakeText.source new
  | ifUnset value => 'U' :: MakeText.source value
  | ifSet value => 'D' :: MakeText.source value
  | forEach loopVariable body closed =>
    '@' :: loopVariable ++ '@' :: MakeText.source body ++ (if closed then ['@'] else [])
  | index range => '[' :: range ++ [']']
  | transform op => op.letters
  | separator text => 't' :: 's' :: text
  | choose yes no => '?' :: MakeText.source yes ++ ':' :: MakeText.source no
  | assign op value => op.symbol ++ MakeText.source value
  | shell command => '!' :: MakeText.source command ++ ['!']

end Modifier

namespace Link

def ofColon : Option Modifier → Link
  | none => empty
  | some modifier => colon modifier

def modifier? : Link → Option Modifier
  | empty => none
  | colon modifier | joined modifier => some modifier

def source : Link → Text
  | empty => [':']
  | colon modifier => ':' :: modifier.source
  | joined modifier => modifier.source

end Link

namespace Reference

def varname (r : Reference) : Text :=
  MakeText.source r.name

def modifiers (r : Reference) : List Modifier :=
  r.chain.filterMap Link.modifier?

/-- The modifier chain as written, with its first colon. -/
def modifierText (r : Reference) : Text :=
  r.chain.flatMap Link.source

/-- A reference without a name computes a value and names no variable. -/
def isNameless (r : Reference) : Bool :=
  r.name.isEmpty

def endsInQuote (r : Reference) : Bool :=
  r.modifiers.getLast?.any Modifier.isQuote

/-- The modifiers, less a last one that quotes. -/
def unquotedModifiers (r : Reference) : List Modifier :=
  if r.endsInQuote then r.modifiers.dropLast else r.modifiers

def nameOffset (r : Reference) : Nat :=
  1 + Text.byteSize r.delimiter.opening

def chainOffset (r : Reference) : Nat :=
  r.nameOffset + MakeText.size r.name

end Reference

/-! ## References inside references -/

mutual

def Part.nested (start : Nat) : Part → List (Nat × Reference)
  | .literal _ => []
  | .reference inner => (start, inner) :: inner.nested start

def MakeText.nested (start : Nat) : List Part → List (Nat × Reference)
  | [] => []
  | part :: parts =>
    part.nested start ++ MakeText.nested (start + Text.byteSize part.source) parts

/-- The references inside a reference that starts at `start`, each with its start. A reference
comes before those inside it, and all come in the order of the text. -/
def Reference.nested (start : Nat) : Reference → List (Nat × Reference)
  | whole@⟨_, name, chain, _⟩ =>
    MakeText.nested (start + whole.nameOffset) name ++
      Link.nestedAll (start + whole.chainOffset) chain

def Link.nestedAll (start : Nat) : List Link → List (Nat × Reference)
  | [] => []
  | link :: chain =>
    link.nested start ++ Link.nestedAll (start + Text.byteSize link.source) chain

def Link.nested (start : Nat) : Link → List (Nat × Reference)
  | .empty => []
  | .colon modifier => modifier.nested (start + 1)
  | .joined modifier => modifier.nested start

def Modifier.nested (start : Nat) : Modifier → List (Nat × Reference)
  | whole@(.select _ text) | whole@(.ifUnset text) | whole@(.ifSet text)
  | whole@(.forEach _ text _) | whole@(.assign _ text) | whole@(.shell text) =>
    MakeText.nested (start + whole.firstOffset) text
  | whole@(.substitute _ _ first second _) | whole@(.suffix first second)
  | whole@(.choose first second) =>
    MakeText.nested (start + whole.firstOffset) first ++
      MakeText.nested (start + whole.secondOffset) second
  | .quote | .index _ | .transform _ | .separator _ => []

end

end RecipeLint
