import RecipeLint.Atom
import RecipeLint.Reference.Read
import RecipeLint.ShellVariable

/-!
# Splitting shell text into atoms

Make expands references before the shell sees the text, so they are read in every quoting state.
What else makes an atom depends on the state. Nothing stops the lexer: text that cannot be read
becomes a text atom and a finding.

One step depends on the state and on the text ahead only; findings are placed from where the step
started. The lexer puts the steps at their places.
-/

namespace RecipeLint

structure AtomReading where
  kind : AtomKind
  /-- How many characters were taken besides the first. -/
  more : Nat
  findings : List Finding
  /-- The state behind the atom. -/
  quoting : Quoting

namespace AtomReading

/-- Reads literal text: an escape, a run of literal characters, or one unexpected character. -/
def ofText (q : Quoting) (c : Char) (rest : Text) : AtomReading :=
  if c = '\\' ∧ q.allowsEscapes then
    match rest with
    | [] => ⟨.text, 0, [⟨.trailingBackslash, .ofSize 1⟩], q⟩
    | '$' :: '$' :: _ => ⟨.text, 2, [], q⟩
    | '$' :: _ => ⟨.text, 0, [], q⟩
    | _ :: _ => ⟨.text, 1, [], q⟩
  else if q.isLiteral c then ⟨.text, (rest.takeWhile q.isLiteral).length, [], q⟩
  else ⟨.text, 0, [⟨.unexpectedChar c q, .ofSize c.utf8Size⟩], q⟩

/-- Reads what a dollar sign starts: a shell variable, a reference, or literal text. -/
def ofDollar (q : Quoting) (rest : Text) : AtomReading :=
  match rest with
  | '$' :: _ =>
    match if q.allowsVariables then ShellVariable.read? ('$' :: rest) else none with
    | some (taken, name) => ⟨.shellVariable name, taken - 1, [], q⟩
    | none => ⟨.text, 1, [], q⟩
  | _ =>
    let reading := Reference.read ('$' :: rest)
    match reading.outcome with
    | .ok (some r) => ⟨.reference r, reading.taken - 1, reading.findings, q⟩
    | .ok none => ⟨.text, 0, [], q⟩
    | .error failure =>
      ⟨.text, reading.taken - 1,
        reading.findings ++ [⟨.badReference failure.value, failure.span⟩], q⟩

/-- Reads blanks, a comment, or literal text. A comment goes up to the end of its backtick command
or of the text. -/
def ofBlank (q : Quoting) (wordStart : Bool) (c : Char) (rest : Text) : AtomReading :=
  if c = ' ' ∨ c = '\t' then
    ⟨.space, (rest.takeWhile fun d => d == ' ' || d == '\t').length, [], q⟩
  else if c = '#' ∧ wordStart then
    ⟨.comment, if q.inBackticks then (rest.takeWhile (· != '\x60')).length else rest.length, [], q⟩
  else ofText q c rest

/-- Reads one atom. A number sign starts a comment at the start of a word only. -/
def read (q : Quoting) (wordStart : Bool) (c : Char) (rest : Text) : AtomReading :=
  if c = '$' then ofDollar q rest
  else match if q.allowsOperators then Operator.read? (c :: rest) else none with
    | some (taken, op) => ⟨.operator op, taken - 1, [], q⟩
    | none =>
      match q.next? c with
      | some next => ⟨.text, 0, [], next⟩
      | none => if q.allowsOperators then ofBlank q wordStart c rest else ofText q c rest

end AtomReading

structure Lexer where
  rest : Text
  /-- The bytes in front of it. -/
  position : Nat
  quoting : Quoting
  /-- Where the outermost open quote starts. -/
  quoteStart : Nat
  /-- Whether a word may start here. -/
  wordStart : Bool
  findings : List Finding
  ended : Bool

namespace Lexer

def start (text : Text) (q : Quoting) : Lexer :=
  ⟨text, 0, q, 0, true, [], false⟩

/-- Whether a word may start behind an atom. The first word of a backtick command may. -/
def startsWord (kind : AtomKind) (before after : Quoting) : Bool :=
  kind.isSeparator || kind.isText && after.inBackticks && !before.inBackticks

/-- Reads the atom that starts with the character `c` before `rest`. -/
def advance (l : Lexer) (c : Char) (rest : Text) : Atom × Lexer :=
  let reading := AtomReading.read l.quoting l.wordStart c rest
  let text := c :: rest.take reading.more
  let position := l.position + Text.byteSize text
  let atom : Atom := ⟨reading.kind, text, ⟨l.position, position⟩, l.quoting⟩
  (atom,
    { rest := rest.drop reading.more
      position
      quoting := reading.quoting
      quoteStart := if l.quoting = .plain then l.position else l.quoteStart
      wordStart := startsWord reading.kind l.quoting reading.quoting
      findings := l.findings ++ reading.findings.map (Located.shift l.position)
      ended := l.ended })

/-- Reaches the end of the text. The first time, an open quote is found there. -/
def finish (l : Lexer) : Lexer :=
  match l.ended, l.quoting.outermost? with
  | false, some opener =>
    { l with
      findings :=
        l.findings ++ [⟨.unterminatedQuote opener l.quoting, ⟨l.quoteStart, l.position⟩⟩]
      ended := true }
  | _, _ => { l with ended := true }

def next (l : Lexer) : Option Atom × Lexer :=
  match l.rest with
  | [] => (none, l.finish)
  | c :: rest =>
    let (atom, l) := l.advance c rest
    (some atom, l)

def run (l : Lexer) : List Atom × Lexer :=
  match _h : l.rest with
  | [] => ([], l.finish)
  | c :: rest =>
    let step := l.advance c rest
    let (atoms, last) := step.2.run
    (step.1 :: atoms, last)
termination_by l.rest.length
decreasing_by simp only [advance, _h, List.length_cons, List.length_drop]; omega

/-- Reads up to the end of a word: how many atoms come before the one that separates words, which is
taken too. -/
def skipWord (l : Lexer) : Nat × Lexer :=
  match _h : l.rest with
  | [] => (0, l.finish)
  | c :: rest =>
    let step := l.advance c rest
    if step.1.isBetweenWords then (0, step.2)
    else
      let (count, last) := step.2.skipWord
      (count + 1, last)
termination_by l.rest.length
decreasing_by simp only [advance, _h, List.length_cons, List.length_drop]; omega

end Lexer

structure Lexing where
  atoms : List Atom
  /-- The state behind the last atom. -/
  quoting : Quoting
  findings : List Finding

def lex (text : Text) (q : Quoting) : Lexing :=
  let (atoms, last) := (Lexer.start text q).run
  ⟨atoms, last.quoting, last.findings⟩

end RecipeLint
