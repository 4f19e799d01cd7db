import RecipeLint.Reference.Basic

/-!
# Spelling a reference anew

The spellings that findings propose: with braces, with the quoting modifier, and without it. They
keep the name and the modifiers as they are written.
-/

namespace RecipeLint

/-- The name with its parameter replaced: `PKG_OPTIONS.foo` becomes `PKG_OPTIONS.*`. The parameter
starts at the first dot, which must have something in front. -/
def familyName (name : Text) : Text :=
  match name.span (· != '.') with
  | (c :: base, _ :: _) => c :: base ++ ['.', '*']
  | _ => name

namespace Reference

def braced (r : Reference) : Text :=
  bracedSpelling r.varname r.modifierText

def quoted (r : Reference) : Text :=
  bracedSpelling r.varname (r.modifierText ++ [':', 'Q'])

def unquoted (r : Reference) : Text :=
  bracedSpelling r.varname (Text.withoutEnding [':', 'Q'] r.modifierText)

end Reference

end RecipeLint
