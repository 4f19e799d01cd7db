import RecipeLint.Source

/-!
# Counts

How many diagnostics of each severity there are, and whether a check fails because of them.
-/

namespace RecipeLint

structure Counts where
  errors : Nat
  warnings : Nat
  notes : Nat
deriving DecidableEq

namespace Counts

def of (diagnostics : List Diagnostic) : Counts where
  errors := diagnostics.countP (·.severity == .error)
  warnings := diagnostics.countP (·.severity == .warning)
  notes := diagnostics.countP (·.severity == .note)

def ofFiles (files : List CheckedFile) : Counts :=
  of ((CheckedFile.entries files).map (·.diagnostic))

/-- Errors and warnings make a check fail; notes do not. -/
def fails (c : Counts) : Bool :=
  0 < c.errors + c.warnings

def plural (n : Nat) (noun : String) : String :=
  if n = 1 then s!"1 {noun}" else s!"{n} {noun}s"

def summary (c : Counts) : String :=
  if c = ⟨0, 0, 0⟩ then "Looks fine."
  else ", ".intercalate
    [plural c.errors "error", plural c.warnings "warning", plural c.notes "note"] ++ "."

end Counts

end RecipeLint
