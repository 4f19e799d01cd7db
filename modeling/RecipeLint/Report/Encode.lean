import RecipeLint.Json.Basic
import RecipeLint.LineCheck

/-!
# Structured form of reports

How atoms, references, words, commands and diagnostics are written as JSON. A reference and all
references inside it are given with their spans in the line.
-/

namespace RecipeLint.Encode

def span (s : Span) : Json :=
  .object [("start", .number s.start), ("end", .number s.stop)]

def delimiter : Delimiter → Json
  | .braces => .str "brace"
  | .parentheses => .str "paren"
  | .bare => .str "none"

def makeText (text : MakeText) (parts : List Json) : Json :=
  .object [("parts", .array parts), ("source", .string (MakeText.source text))]

def tagged (kind : String) (args : List (String × Json)) : Json :=
  .object (("kind", .str kind) :: args)

def named (args : List (String × Json)) : List (String × Json) :=
  [("args", .object args)]

mutual

def part (start : Nat) : Part → Json
  | .literal text => tagged "literal" [("value", .string text)]
  | .reference inner => tagged "var_ref" [("value", reference start inner)]

def parts (start : Nat) : List Part → List Json
  | [] => []
  | first :: others =>
    part start first :: parts (start + Text.byteSize first.source) others

def reference (start : Nat) : Reference → Json
  | whole@⟨_, name, chain, text⟩ =>
    .object
      [("name", makeText name (parts (start + whole.nameOffset) name)),
        ("modifiers", .array (links (start + whole.chainOffset) chain)),
        ("delimiter", delimiter whole.delimiter),
        ("span", span ⟨start, start + Text.byteSize text⟩),
        ("text", .string text),
        ("modifier_text", .string whole.modifierText)]

def links (start : Nat) : List Link → List Json
  | [] => []
  | first :: others =>
    link start first ++ links (start + Text.byteSize first.source) others

def link (start : Nat) : Link → List Json
  | .empty => []
  | .colon m => [modifier (start + 1) m]
  | .joined m => [modifier start m]

def modifier (start : Nat) : Modifier → Json
  | .quote => tagged "quote" []
  | whole@(.select keep pattern) =>
    tagged "match" (named
      [("positive", .bool keep),
        ("pattern", makeText pattern (parts (start + whole.firstOffset) pattern))])
  | whole@(.substitute regex c old new flags) =>
    tagged "subst" (named
      [("regex", .bool regex),
        ("separator", .string [c]),
        ("from", makeText old (parts (start + whole.firstOffset) old)),
        ("to", makeText new (parts (start + whole.secondOffset) new)),
        ("flags", .string flags)])
  | whole@(.suffix old new) =>
    tagged "suffix_subst" (named
      [("from", makeText old (parts (start + whole.firstOffset) old)),
        ("to", makeText new (parts (start + whole.secondOffset) new))])
  | whole@(.ifUnset value) =>
    tagged "default_if_unset"
      [("args", makeText value (parts (start + whole.firstOffset) value))]
  | whole@(.ifSet value) =>
    tagged "if_defined" [("args", makeText value (parts (start + whole.firstOffset) value))]
  | whole@(.forEach loopVariable body _) =>
    tagged "loop_expand" (named
      [("var", .string loopVariable),
        ("body", makeText body (parts (start + whole.firstOffset) body))])
  | .index range => tagged "index_or_range" [("args", .string range)]
  | .transform op => tagged "word_transform" [("args", .str op.name)]
  | .separator text => tagged "separator" [("args", .string text)]
  | whole@(.choose yes no) =>
    tagged "ternary" (named
      [("then", makeText yes (parts (start + whole.firstOffset) yes)),
        ("otherwise", makeText no (parts (start + whole.secondOffset) no))])
  | whole@(.assign op value) =>
    tagged "assign" (named
      [("op", .str op.name),
        ("value", makeText value (parts (start + whole.firstOffset) value))])
  | whole@(.shell command) =>
    tagged "shell_eval" [("args", makeText command (parts (start + whole.firstOffset) command))]

end

def operator : Operator → Json
  | .control which => .object [("op", .str which.name)]
  | .redirect descriptor? kind =>
    .object
      [("op", .str "redirect"),
        ("fd", .optional .number descriptor?),
        ("kind", .str kind.name)]

def atomKind (start : Nat) : AtomKind → Json
  | .space => tagged "space" []
  | .text => tagged "text" []
  | .comment => tagged "comment" []
  | .reference r => tagged "var_ref" [("value", reference start r)]
  | .shellVariable name => tagged "shell_var" [("value", .object [("name", .string name)])]
  | .operator op => tagged "operator" [("value", operator op)]

def atom (a : Atom) : Json :=
  .object
    [("kind", atomKind a.span.start a.kind),
      ("text", .string a.text),
      ("span", span a.span),
      ("quoting", .str a.quoting.name)]

def wordMembers (w : Word) : List (String × Json) :=
  [("atoms", .list atom w.atoms), ("span", span w.span), ("closed", .bool w.closed)]

def word (w : Word) : Json :=
  .object (wordMembers w)

def token : Token → Json
  | .word w => .object (("token", .str "word") :: wordMembers w)
  | .operator op s =>
    .object [("token", .str "operator"), ("op", operator op), ("span", span s)]
  | .comment text s =>
    .object [("token", .str "comment"), ("text", .string text), ("span", span s)]

def assignment (a : Assignment) : Json :=
  .object
    [("name", .string a.name), ("value", .optional word a.value?), ("span", span a.span)]

def redirect (r : Redirect) : Json :=
  .object
    [("fd", .optional .number r.descriptor?),
      ("kind", .str r.kind.name),
      ("target", .optional word r.target?),
      ("span", span r.span)]

def command (c : Command) : Json :=
  .object
    [("assignments", .list assignment c.assignments),
      ("name", .optional word c.name?),
      ("args", .list word c.args),
      ("redirects", .list redirect c.redirects),
      ("span", span c.span)]

def fix (f : Fix) : Json :=
  .object [("span", span f.span), ("replacement", .string f.replacement)]

/-- A diagnostic. A missing fix is left out. -/
def diagnostic (d : Diagnostic) : Json :=
  .object
    ([("severity", .str d.severity.name), ("message", .str d.message), ("span", span d.span)] ++
      (d.fix?.map fun f => ("fix", fix f)).toList)

def lineReport (report : LineReport) : Json :=
  .object
    [("atoms", .list atom report.atoms),
      ("end_state", .str report.quoting.name),
      ("tokens", .list token report.tokens),
      ("commands", .list command report.commands),
      ("diagnostics", .list diagnostic report.diagnostics)]

end RecipeLint.Encode
