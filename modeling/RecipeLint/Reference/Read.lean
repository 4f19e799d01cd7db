import RecipeLint.Reference.Modifier

/-!
# Reading references

A reference starts at a dollar sign. One that cannot be read is taken up to its closing delimiter,
so that what follows is read as if nothing had happened.
-/

namespace RecipeLint

/-- How many delimiters may stand open at once. -/
def maxNesting : Nat := 64

/-- The characters up to the one that closes the last delimiter of a stack, counting it, or all if
there is none. Delimiters that are opened on the way are closed first. -/
def closeLength : List Char → Text → Nat
  | [], _ => 0
  | _, [] => 0
  | stack, '$' :: '$' :: rest => closeLength stack rest + 2
  | stack, '$' :: '\x7b' :: rest => closeLength ('\x7d' :: stack) rest + 2
  | stack, '$' :: '(' :: rest => closeLength (')' :: stack) rest + 2
  | close :: stack, c :: rest =>
    closeLength (if c = close then stack else close :: stack) rest + 1

def isNameChar (c : Char) : Bool :=
  isIdentifierChar c || ".+-/#*,[]@<>?!%^~&".toList.contains c

/-- One-character names that make defines. -/
def isAutomaticName (c : Char) : Bool :=
  "@<*?> ".toList.contains c

/-- Splits a name before its first character that is none of a name, outside of references. -/
def MakeText.splitName : MakeText → Text × Text
  | [] => ([], [])
  | .literal text :: parts =>
    match text.span isNameChar with
    | (_, []) =>
      let (valid, invalid) := splitName parts
      (text ++ valid, invalid)
    | (valid, invalid) => (valid, invalid ++ MakeText.source parts)
  | .reference inner :: parts =>
    let (valid, invalid) := splitName parts
    (inner.text ++ valid, invalid)

namespace Reference

/-- The finding about a name with a character that is none of a name: most likely a typo. -/
def nameFindings (r : Reference) : List Finding :=
  match MakeText.splitName r.name with
  | (_, []) => []
  | (valid, invalid) =>
    [⟨.invalidNamePart valid invalid,
      Span.shift (r.nameOffset + Text.byteSize valid) (.ofSize (Text.byteSize invalid))⟩]

def styleFindings (r : Reference) : List Finding :=
  if r.delimiter = .parentheses then
    [⟨.roundParentheses r.varname r.modifierText, .ofSize (Text.byteSize r.text)⟩]
  else []

section

variable (nested : Reader (Option Reference)) (close : Char)

/-- Reads a chain of modifiers for the variable `name`. With `mayJoin`, the first one needs no
colon. -/
def readChain (name : Text) (mayJoin : Bool) (text : Text) : Reading (List Link) :=
  match text with
  | [] => .done []
  | ':' :: rest =>
    let step := Modifier.read nested close name rest
    match step.outcome with
    | .error failure => Reading.after [':'] ⟨step.taken, step.findings, .error failure⟩
    | .ok modifier? =>
      ((step.andThen (rest.take step.taken)
        (readChain name (modifier?.any Modifier.isSubstitution) (rest.drop step.taken))).map
          (Link.ofColon modifier? :: ·)).after [':']
  | c :: rest =>
    if mayJoin then
      let step := Modifier.read nested close name (c :: rest)
      match step.outcome with
      | .error failure => ⟨step.taken, step.findings, .error failure⟩
      | .ok none => .done []
      | .ok (some modifier) =>
        (step.andThen (c :: rest.take (step.taken - 1))
          (readChain name modifier.isSubstitution (rest.drop (step.taken - 1)))).map
            (.joined modifier :: ·)
    else .done []
termination_by text.length
decreasing_by all_goals simp only [List.length_cons, List.length_drop]; omega

def readBody (text : Text) : Reading (MakeText × List Link) :=
  (makeText nested (fun c => c == ':' || c == close) false text).followedBy text fun name rest =>
    (readChain nested close (MakeText.source name) false rest).map (name, ·)

end

/-- Ends a reference in delimiters behind its name and modifiers. Anything but the closing delimiter
is a modifier that cannot be read, and is taken up to that delimiter. -/
def endDelimited (close : Char) (delimiter : Delimiter) (text : Text)
    (body : Reading (MakeText × List Link)) : Reading Reference :=
  let rest := text.drop body.taken
  let toClose := closeLength [close] rest
  match body.outcome with
  | .error failure => ⟨body.taken + toClose, body.findings, .error failure⟩
  | .ok (name, chain) =>
    match rest with
    | [] =>
      let failure := ReferenceFailure.missingClose close (MakeText.source name)
      ⟨body.taken, body.findings, .error ⟨failure, .ofSize (Text.byteSize text)⟩⟩
    | c :: _ =>
      if c = close then
        let r : Reference := ⟨delimiter, name, chain, text.take (body.taken + 1)⟩
        ⟨body.taken + 1, body.findings ++ r.nameFindings ++ r.styleFindings, .ok r⟩
      else
        let junk := rest.take toClose
        let failure :=
          ReferenceFailure.invalidModifier (Text.withoutEnding [close] junk) (MakeText.source name)
        let span := Span.shift (Text.byteSize (text.take body.taken)) (.ofSize (Text.byteSize junk))
        ⟨body.taken + toClose, body.findings, .error ⟨failure, span⟩⟩

def readDelimited (nested : Reader (Option Reference)) (close : Char) (delimiter : Delimiter)
    (text : Text) : Reading Reference :=
  endDelimited close delimiter text ((readBody nested close (text.drop 2)).after (text.take 2))

/-- Takes a reference that is nested too deeply up to its closing delimiter. -/
def skipDelimited (close : Char) (text : Text) : Reading Reference :=
  let taken := 2 + closeLength [close] (text.drop 2)
  ⟨taken, [],
    .error ⟨.nestingTooDeep maxNesting, .ofSize (Text.byteSize (text.take taken))⟩⟩

def readBare (c : Char) (rest : Text) : Reading (Option Reference) :=
  let r : Reference := ⟨.bare, [.literal [c]], [], ['$', c]⟩
  if isIdentifierChar c then
    (Reading.take 2 (some r)).found
      [⟨.ambiguousName (c :: rest.takeWhile isIdentifierChar), .ofSize (Text.byteSize r.text)⟩]
  else if isAutomaticName c then .take 2 (some r)
  else ⟨1, [], .error ⟨.loneDollar c, .ofSize 1⟩⟩

/-- Reads what a dollar sign starts. Two dollar signs start no reference, nor does one at the end
of the text. -/
def readDollar (delimited : Delimiter → Char → Reader Reference) : Reader (Option Reference)
  | '$' :: '$' :: _ => .done none
  | '$' :: '\x7b' :: rest => (delimited .braces '\x7d' ('$' :: '\x7b' :: rest)).map some
  | '$' :: '(' :: rest => (delimited .parentheses ')' ('$' :: '(' :: rest)).map some
  | '$' :: c :: rest => readBare c rest
  | _ => .done none

/-- Reads a reference where `levels` more delimiters may be opened. -/
def readWithin : (levels : Nat) → Reader (Option Reference)
  | 0 => readDollar fun _ close => skipDelimited close
  | levels + 1 =>
    readDollar fun delimiter close => readDelimited (readWithin levels) close delimiter

def read : Reader (Option Reference) :=
  readWithin maxNesting

end Reference

end RecipeLint
