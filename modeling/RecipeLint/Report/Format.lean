import RecipeLint.Report.Counts
import RecipeLint.Report.Encode
import RecipeLint.Text.Quoted

/-!
# Report formats

A report lists diagnostics, as lines or as JSON. A dump shows all that is known about each line.
-/

namespace RecipeLint.Report

def indented (block : Text) : Text :=
  (Text.lines block).flatMap fun line => "    ".toList ++ line ++ ['\n']

def excerptContext : Nat := 30

/-- One line for each diagnostic, perhaps with an excerpt below it, and a summary. -/
def listing (showSource : Bool) (files : List CheckedFile) : Text :=
  let entry (e : CheckedFile.Entry) : Text :=
    e.diagnostic.severity.tag.toList ++ ": ".toList ++ e.path ++ ':' :: Text.ofNat e.number ++
      ": ".toList ++ e.diagnostic.message.toList ++ '\n' ::
      if showSource then
        indented ((e.diagnostic.span.excerpt? excerptContext e.line).getD [])
      else []
  (CheckedFile.entries files).flatMap entry ++ (Counts.ofFiles files).summary.toList ++ ['\n']

/-- A diagnostic in a list. A missing fix is shown as such. -/
def entryJson (e : CheckedFile.Entry) : Json :=
  let column := ((e.diagnostic.span.locate? e.line).map (·.column)).getD 0
  .object
    [("path", .string e.path),
      ("line", .number e.number),
      ("column", .number (column + 1)),
      ("severity", .str e.diagnostic.severity.name),
      ("message", .str e.diagnostic.message),
      ("fix", .optional Encode.fix e.diagnostic.fix?)]

def json (files : List CheckedFile) : Text :=
  (Json.list entryJson (CheckedFile.entries files)).pretty ++ ['\n']

def atomLabel : AtomKind → String
  | .space => "space"
  | .text => "text"
  | .reference _ => "varref"
  | .shellVariable _ => "shellvar"
  | .operator _ => "operator"
  | .comment => "comment"

def dumpAtom (a : Atom) : Text :=
  "    ".toList ++ a.quoting.code.toList.rightpad 6 ' ' ++
    ' ' :: (atomLabel a.kind).toList.rightpad 9 ' ' ++ ' ' :: Text.quoted a.text ++ ['\n']

def dumpCommand (c : Command) : Text :=
  "    command ".toList ++ Text.quoted ((c.name?.map Word.text).getD []) ++
    (if c.assignments.isEmpty then []
      else " assigns ".toList ++ List.intercalate [','] (c.assignments.map (·.name))) ++
    (if c.args.isEmpty then [] else " args ".toList ++ Text.quotedList (c.args.map Word.text)) ++
    (if c.redirects.isEmpty then []
      else " redirects ".toList ++ Text.ofNat c.redirects.length) ++ ['\n']

def dumpLine (path : Text) (line : CheckedLine) : Text :=
  path ++ ':' :: Text.ofNat line.number ++ ": ".toList ++ Text.trimLeft line.line ++ ['\n'] ++
    line.report.atoms.flatMap dumpAtom ++
    (if line.report.quoting = .plain then []
      else "    ends in ".toList ++ line.report.quoting.code.toList ++ ['\n']) ++
    line.report.commands.flatMap dumpCommand ++
    line.report.diagnostics.flatMap fun d => indented ((d.render? line.line).getD [])

def dump (files : List CheckedFile) : Text :=
  files.flatMap fun file => file.lines.flatMap (dumpLine file.path)

def dumpJson (files : List CheckedFile) : Text :=
  let lineJson (path : Text) (line : CheckedLine) : Json :=
    .object
      [("path", .string path),
        ("line", .number line.number),
        ("report", Encode.lineReport line.report)]
  (Json.array (files.flatMap fun file => file.lines.map (lineJson file.path))).pretty ++ ['\n']

end RecipeLint.Report
