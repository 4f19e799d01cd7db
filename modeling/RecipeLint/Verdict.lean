import RecipeLint.Use

/-!
# Verdicts

Whether the quoting modifier belongs at the end of a reference.
-/

namespace RecipeLint

inductive Verdict where
  | mustQuote
  /-- Quoting is redundant or wrong. -/
  | mustNotQuote
  | doesNotMatter
  /-- Not enough is known. -/
  | unknown
deriving DecidableEq

namespace Verdict

def display : Verdict → String
  | mustQuote => "must quote"
  | mustNotQuote => "must not quote"
  | doesNotMatter => "does not matter"
  | unknown => "unknown"

def name : Verdict → String
  | mustQuote => "must_quote"
  | mustNotQuote => "must_not_quote"
  | doesNotMatter => "does_not_matter"
  | unknown => "unknown"

/-- Whether the last modifier leaves the type of the value as it is: a selection of words does. -/
def keepsType (modifiers : List Modifier) : Bool :=
  match modifiers.getLast? with
  | none | some (.select ..) => true
  | some _ => false

/-- Judges by the surrounding type: quoting matters if exactly one of the place and the value is
several words. Quotes keep the shell from splitting, whatever the surrounding type. -/
def ofSurroundings (type : VarType) (use : Use) : Verdict :=
  match use.type? with
  | none => .unknown
  | some surrounding =>
    let splits := use.quoting = .plain ∨ use.quoting = .backticks
    if surrounding.basic = .unknown then .unknown
    else if (surrounding.isManyWords && decide splits) = type.isManyWords then
      .doesNotMatter
    else .mustQuote

/-- Judges a use of a variable of type `type`, by all modifiers but a last one that quotes. -/
def judge (type : VarType) (modifiers : List Modifier) (use : Use) : Verdict :=
  if type.basic = .unknown ∨ use.quoting = .unknown ∨ !keepsType modifiers then .unknown
  else if type.basic.isPlainWord ∧ !type.list then .doesNotMatter
  else if type.basic.isPlainWord ∧ use.extent ≠ .wordPart then .mustNotQuote
  else if use.quoting = .forLoop then .mustNotQuote
  else if use.extent = .wordPart ∧ use.quoting ≠ .backticks then .mustQuote
  else ofSurroundings type use

/-- Judges a use of a reference. Without a type nothing is known. -/
def ofReference (type? : Option VarType) (r : Reference) (use : Use) : Verdict :=
  match type? with
  | none => .unknown
  | some type => judge type r.unquotedModifiers use

end Verdict

end RecipeLint
