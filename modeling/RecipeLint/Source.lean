import RecipeLint.LineCheck
import RecipeLint.Text.Blank
import RecipeLint.Text.Lines

/-!
# Sources

A source is checked line by line. One tab in front of a line is indentation of the recipe and no
part of the shell text. Lines with nothing else are left out.
-/

namespace RecipeLint

structure SourceLine where
  /-- From one. -/
  number : Nat
  line : Text
  /-- How many bytes of indentation stand in front. -/
  indent : Nat

namespace SourceLine

def splitIndent : Text → Nat × Text
  | '\t' :: rest => (1, rest)
  | line => (0, line)

def text (s : SourceLine) : Text :=
  s.line.drop s.indent

/-- The lines of a source, the first of which has some number, less the blank ones. -/
def ofLines (number : Nat) : List Text → List SourceLine
  | [] => []
  | line :: lines =>
    let (indent, text) := splitIndent line
    if Text.isBlank text then ofLines (number + 1) lines
    else ⟨number, line, indent⟩ :: ofLines (number + 1) lines

def ofSource (source : Text) : List SourceLine :=
  ofLines 1 (Text.lines source)

end SourceLine

structure CheckedLine where
  number : Nat
  line : Text
  /-- Findings are placed in the whole line, everything else in the text behind the indentation. -/
  report : LineReport

structure CheckedFile where
  path : Text
  lines : List CheckedLine

def lintSource (check : Text → LineReport) (path source : Text) : CheckedFile where
  path := path
  lines := (SourceLine.ofSource source).map fun s =>
    ⟨s.number, s.line, (check s.text).shiftFindings s.indent⟩

namespace CheckedFile

structure Entry where
  path : Text
  number : Nat
  line : Text
  diagnostic : Diagnostic

def entries (files : List CheckedFile) : List Entry :=
  files.flatMap fun file =>
    file.lines.flatMap fun line =>
      line.report.diagnostics.map fun d => ⟨file.path, line.number, line.line, d⟩

end CheckedFile

end RecipeLint
