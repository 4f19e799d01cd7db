import RecipeLint.Command
import RecipeLint.Lexer
import RecipeLint.Reference.Spelling
import RecipeLint.Settings
import RecipeLint.Verdict

/-!
# Checking a line

A line is split into atoms and grouped into commands, and every reference on it is judged. Lines
are independent of one another.
-/

namespace RecipeLint

abbrev Registry := Text → Option VarType

structure LineReport where
  atoms : List Atom
  quoting : Quoting
  tokens : List Token
  commands : List Command
  /-- By start; those with equal starts in the order in which they were made. -/
  findings : List Finding

namespace LineReport

def diagnostics (report : LineReport) : List Diagnostic :=
  report.findings.map Finding.diagnostic

def shiftFindings (offset : Nat) (report : LineReport) : LineReport :=
  { report with findings := report.findings.map (Located.shift offset) }

end LineReport

namespace LineCheck

/-- What to say about the quoting of a reference, by its verdict. A needless modifier is tolerated
where the value may need it. -/
def quotingCause? (r : Reference) (use : Use) (verdict : Verdict) (plainWord : Bool) :
    Option Cause :=
  match verdict, r.endsInQuote with
  | .mustQuote, false =>
    if use.quoting.isQuoted then some (.quotedInQuotes r.quoted)
    else if use.extent = .wordPart then some (.unquotedPart r.varname)
    else some (.unquoted r.braced r.quoted)
  | .mustNotQuote, true => some (.needlessQuoting r.unquoted)
  | .doesNotMatter, true => if plainWord then some (.needlessQuoting r.unquoted) else none
  | .unknown, true => if use.quoting = .double then some .quotedInDoubleQuotes else none
  | _, _ => none

/-- What is wrong with a use of a reference. A reference without a name is never wrong. -/
def causes (types : Registry) (r : Reference) (use : Use) : List Cause :=
  if r.isNameless then []
  else
    match types r.varname with
    | none => (quotingCause? r use .unknown false).toList
    | some type =>
      (if use.time = .load ∧ !type.permissions.useAtLoadTime then [.loadTimeUse r.varname] else []) ++
        (quotingCause? r use (Verdict.ofReference (some type) r use)
          type.basic.isPlainWord).toList

def useFindings (types : Registry) (site : Site) (atoms : List Atom) : List Finding :=
  atoms.flatMap fun a =>
    match a.reference? with
    | none => []
    | some r =>
      (causes types r (Use.ofPosition atoms a.span.start site)).map fun cause => ⟨cause, a.span⟩

def sorted (findings : List Finding) : List Finding :=
  findings.mergeSort fun f g => f.span.start ≤ g.span.start

end LineCheck

def lintLine (types : Registry) (settings : Settings) (text : Text) (q : Quoting) (site : Site) :
    LineReport :=
  let lexing := lex text q
  let tokens := Token.ofAtoms lexing.atoms lexing.quoting
  { atoms := lexing.atoms
    quoting := lexing.quoting
    tokens
    commands := Command.ofTokens tokens
    findings := LineCheck.sorted (settings.select
      (lexing.findings ++ LineCheck.useFindings types site lexing.atoms)) }

namespace LineCheck

/-- Applies the first fix of a check, checks again, and so on, for some rounds at most: the texts
with what was found in each. -/
def mend (check : Text → LineReport) : (rounds : Nat) → Text → List (Text × List Diagnostic)
  | 0, _ => []
  | rounds + 1, text =>
    let diagnostics := (check text).diagnostics
    (text, diagnostics) ::
      match (diagnostics.findSome? Diagnostic.fix?).bind (Fix.applied? · text) with
      | some fixed => mend check rounds fixed
      | none => []

end LineCheck

end RecipeLint
