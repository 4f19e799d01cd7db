import RecipeLint.Config
import RecipeLint.Text.Utf8

/-!
# Failures

Why there is no report, from what was being done to what stood in the way.
-/

namespace RecipeLint.CommandLine

structure SystemError where
  description : String
  number : Nat
deriving DecidableEq

namespace SystemError

def notFound : SystemError := ⟨"No such file or directory", 2⟩

def notDirectory : SystemError := ⟨"Not a directory", 20⟩

def isDirectory : SystemError := ⟨"Is a directory", 21⟩

def saysNoFile (e : SystemError) : Bool :=
  [notFound, notDirectory, isDirectory].contains e

def message (e : SystemError) : String :=
  s!"{e.description} (os error {e.number})"

end SystemError

inductive ReadError where
  | system (e : SystemError)
  /-- Its bytes are no UTF-8. -/
  | notText
deriving DecidableEq

def ReadError.message : ReadError → String
  | system e => e.message
  | notText => "stream did not contain valid UTF-8"

inductive Failure where
  /-- The command line asks for nothing that can be done. -/
  | misuse
  | typesNotRead (path : Text) (e : ReadError)
  | typesNotMerged (path : Text) (e : MergeError)
  | fileNotRead (path : Text) (e : ReadError)
  /-- Standard input is no UTF-8. -/
  | inputNotText (e : Utf8.Error)
deriving DecidableEq

namespace Failure

/-- What failed, then what it was due to, from the outside in. -/
def causes : Failure → String × List String
  | misuse => ("invalid command line", [])
  | typesNotRead path e =>
    ("cannot load variable types", [s!"cannot read {path.str}: {e.message}", e.message])
  | typesNotMerged path e => ("cannot load variable types", [e.message path])
  | fileNotRead path e => (s!"cannot read {path.str}", [e.message])
  | inputNotText e => ("cannot read standard input", [e.message])

/-- The failure in words: with its causes, unless it names all of them itself. -/
def message (f : Failure) : String :=
  let (top, causes) := f.causes
  if causes.all fun cause => Text.occursIn cause.toList top.toList then top
  else ": ".intercalate (top :: causes)

end Failure

end RecipeLint.CommandLine
