import RecipeLint.Reference.MakeText

/-!
# Reading modifiers

The first characters of a modifier choose its form. A form that does not work out leaves the text
to the general one, `old=new`, and what has no form at all is a failure that covers the characters
taken.
-/

namespace RecipeLint.Modifier

def ofWord? (word : Text) : Option Modifier :=
  if word = ['Q'] then some .quote else (WordTransform.ofLetters? word).map .transform

def isFlag (c : Char) : Bool :=
  c == '1' || c == 'g' || c == 'W'

def isLoopChar (c : Char) : Bool :=
  isIdentifierChar c || c == '.'

def isRangeChar (c : Char) : Bool :=
  c.isDigit || c == '-' || c == '.'

/-- One character, or a backslash with `n`, `t` or digits. -/
def isSeparator : Text → Bool
  | ['\\', 'n'] | ['\\', 't'] | [_] => true
  | '\\' :: digits => digits.all Char.isDigit
  | _ => false

/-- The range between brackets, if a closing bracket follows. -/
def range? (text : Text) : Option Text :=
  let digits := text.takeWhile isRangeChar
  let range := if digits.isEmpty then (text.take 1).filter "#@*".toList.contains else digits
  match range, text.drop range.length with
  | _ :: _, ']' :: _ => some range
  | _, _ => none

/-- The variable of a loop, if its mark follows. -/
def loopVariable? (text : Text) : Option Text :=
  match text.span isLoopChar with
  | (c :: cs, '@' :: _) => some (c :: cs)
  | _ => none

def assigning? (text : Text) : Option Assigning :=
  Assigning.all.find? fun op => op.symbol.isPrefixOf text

section

variable (nested : Reader (Option Reference)) (close : Char) (name : Text)

/-- Make text up to a colon or the end of the reference. -/
def argument (pairs : Bool) : Reader MakeText :=
  makeText nested (fun c => c == ':' || c == close) pairs

/-- The failure that covers all characters taken. -/
def invalid (taken : Text) : Located ReferenceFailure :=
  ⟨.invalidModifier taken name, .ofSize (Text.byteSize taken)⟩

/-- Decides what make text is that goes up to the end of a modifier: nothing, or `old=new`. -/
def general (text : MakeText) : Except (Located ReferenceFailure) (Option Modifier) :=
  if text.isEmpty then .ok none
  else match MakeText.cut? '=' text with
    | some (old, new) => .ok (some (.suffix old new))
    | none => .error (invalid name (MakeText.source text))

/-- Reads a separator of words. Behind an empty one, a colon is the separator. -/
def readSeparator (text : Text) : Reading Modifier :=
  (argument nested close false text).followedBy text fun value rest =>
    match MakeText.source value, rest with
    | [], ':' :: _ => .take 1 (.separator [':'])
    | chars, _ => .done (.separator chars)

def separatorFindings (modifier : Modifier) : List Finding :=
  match modifier with
  | .separator text =>
    if isSeparator text then []
    else [⟨.invalidSeparator text name, .ofSize (Text.byteSize modifier.source)⟩]
  | _ => []

def readHalf (bound : Char) : Reader MakeText :=
  makeText nested (fun c => c == bound || c == close) true

/-- Reads the first half of a substitution, where a caret at the start is an anchor even if it is
also the separator. -/
def readOld (bound : Char) : Reader MakeText
  | '^' :: rest => (readHalf nested close bound rest).literal ['^']
  | text => readHalf nested close bound text

/-- Reads a substitution behind its first separator. One that is not finished is nothing. -/
def readSubstitution (regex : Bool) (bound : Char) (text : Text) : Reading (Option Modifier) :=
  (readOld nested close bound text).followedBy text fun old rest =>
    match rest with
    | [] => .done none
    | c :: rest =>
      if c = bound then
        ((readHalf nested close bound rest).followedBy rest fun new rest =>
          match rest with
          | [] => .done none
          | c :: rest =>
            if c = bound then
              let flags := rest.takeWhile isFlag
              .take (1 + flags.length) (some (.substitute regex bound old new flags))
            else .done none).after [c]
      else .done none

def readLoop (loopVariable text : Text) : Reading Modifier :=
  (makeText nested (fun c => c == '@' || c == close) true text).followedBy text fun body rest =>
    match rest with
    | '@' :: _ => .take 1 (.forEach loopVariable body true)
    | _ => .done (.forEach loopVariable body false)

def loopFindings (modifier : Modifier) : List Finding :=
  match modifier with
  | .forEach loopVariable _ false =>
    [⟨.unclosedLoop name loopVariable, .ofSize (Text.byteSize modifier.source)⟩]
  | _ => []

/-- Reads a choice behind its question mark. Without a second half, the first is the text of a
general modifier. -/
def readChoice (text : Text) : Reading (Option Modifier) :=
  ((argument nested close false text).followedBy text fun yes rest =>
    match rest with
    | ':' :: rest =>
      ((argument nested close false rest).map fun no => Sum.inl (.choose yes no)).after [':']
    | _ => .done (Sum.inr (MakeText.consLiteral ['?'] yes))).after ['?'] |>.judge fun
      | .inl modifier => .ok (some modifier)
      | .inr text => general name text

/-- Reads a command behind its exclamation mark. Without a second mark, it is the text of a general
modifier, which must not contain a colon. -/
def readCommand (text : Text) : Reading (Option Modifier) :=
  ((makeText nested (fun c => c == '!' || c == close) false text).followedBy text
    fun command rest =>
      match rest with
      | '!' :: _ => .take 1 (Sum.inl (.shell command))
      | _ => .done (Sum.inr (MakeText.consLiteral ['!'] command))).after ['!'] |>.judge fun
        | .inl modifier => .ok (some modifier)
        | .inr text =>
          if MakeText.hasLiteral ':' text then .error (invalid name (MakeText.source text))
          else general name text

def readGeneral (text : Text) : Reading (Option Modifier) :=
  (argument nested close false text).judge (general name)

/-- Reads a modifier that starts with `t` and is no fixed word: a separator of words behind `ts`. -/
def separatorForm (rest : Text) : Reading (Option Modifier) :=
  match rest with
  | 's' :: behind =>
    (((readSeparator nested close behind).after ['t', 's']).noting (separatorFindings name)).map some
  | _ => readGeneral nested close name ('t' :: rest)

def indexForm (rest : Text) : Reading (Option Modifier) :=
  match range? rest with
  | some range => .take (range.length + 2) (some (.index range))
  | none => readGeneral nested close name ('[' :: rest)

def loopForm (rest : Text) : Reading (Option Modifier) :=
  match loopVariable? rest with
  | some loopVariable =>
    (((readLoop nested close loopVariable (rest.drop (loopVariable.length + 1))).after
      ('@' :: loopVariable ++ ['@'])).noting (loopFindings name)).map some
  | none => readGeneral nested close name ('@' :: rest)

/-- Reads a modifier behind a colon of its own: an assignment, else an empty modifier. -/
def assignForm (rest : Text) : Reading (Option Modifier) :=
  match assigning? (':' :: rest) with
  | some op =>
    ((argument nested close true ((':' :: rest).drop op.symbol.length)).map
      (some <| .assign op ·)).after op.symbol
  | none => .done none

/-- Reads a modifier behind the letter of a substitution. The next character separates its parts,
unless it ends the reference or starts an escape. -/
def substitutionForm (letter : Char) (rest : Text) : Reading (Option Modifier) :=
  match rest with
  | [] => readGeneral nested close name [letter]
  | bound :: behind =>
    if bound = close ∨ bound = '\\' then readGeneral nested close name (letter :: rest)
    else
      let reading :=
        (readSubstitution nested close (letter = 'C') bound behind).after [letter, bound]
      reading.judge fun
        | some modifier => .ok (some modifier)
        | none => .error (invalid name ((letter :: rest).take reading.taken))

/-- Reads a modifier that is no fixed word. Its first character chooses the form. -/
def readForm (first : Char) (rest : Text) : Reading (Option Modifier) :=
  match first with
  | 'M' => ((argument nested close true rest).map (some <| .select true ·)).after ['M']
  | 'N' => ((argument nested close true rest).map (some <| .select false ·)).after ['N']
  | 'D' => ((argument nested close true rest).map (some <| .ifSet ·)).after ['D']
  | 'U' => ((argument nested close true rest).map (some <| .ifUnset ·)).after ['U']
  | '=' => ((argument nested close true rest).map (some <| .suffix [] ·)).after ['=']
  | 't' => separatorForm nested close name rest
  | '?' => readChoice nested close name rest
  | '!' => readCommand nested close name rest
  | '[' => indexForm nested close name rest
  | '@' => loopForm nested close name rest
  | ':' => assignForm nested close rest
  | 'S' => substitutionForm nested close name 'S' rest
  | 'C' => substitutionForm nested close name 'C' rest
  | _ => readGeneral nested close name (first :: rest)

def read (text : Text) : Reading (Option Modifier) :=
  let word := text.takeWhile Char.isAlphanum
  match ofWord? word, text with
  | some modifier, _ => .take word.length (some modifier)
  | none, [] => .done none
  | none, first :: rest => readForm nested close name first rest

end

end RecipeLint.Modifier
